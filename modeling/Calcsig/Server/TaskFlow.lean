import Calcsig.Server.RequestOutcome
import Calcsig.ThreadPool.Model
import Mathlib.Data.Fintype.Option

namespace Calcsig.Server.TaskFlow

open Foundation.Documents Foundation.Runs Worker Request RequestOutcome ThreadPool.Model

variable {ι : Type}

/-- A request with what the event loop meets while it handles it: the waiting
worker that the signal of `add_task` picks, and the value the reader makes of
what stands behind an array without NUL, if it does not throw. -/
structure Call (ι : Type) where
  allocated : Bool
  printed : Bool
  prior : Buffer
  request : Posting
  stray : Option Json
  waiter : Option ι

def handling (parse : Reader) (stopped printed : Bool) (call : Call ι) : Handling :=
  (calcsigProcess parse ⟨stopped, call.allocated, printed⟩ call.prior call.request).getD
    (handleValue ⟨stopped, call.allocated, printed⟩ call.stray)

def dataOf (parse : Reader) (call : Call ι) : Option Json :=
  match document call.prior call.request.splits call.request.body with
  | some szTemp => (parse szTemp).map Prod.snd
  | none => call.stray

/-- The task that the handler makes, with the fields that it reads from the request;
they are empty before it has read them. -/
def requested (parse : Reader) (call : Call ι) : HttpTask :=
  ((dataOf parse call).bind taskOf).getD ⟨[], [], [], [], []⟩

/-- The event loop, which is the thread `none`, handles one request as one step;
the workers take single steps in `get_task`. -/
inductive Event (ι : Type)
  | request : Call ι → Event ι
  | getTask : ι → Event ι
  | next : ι → Event ι
  | wake : ι → Event ι

def announce : Option ι → Act (Option ι) HttpTask
  | none => .next none
  | some w => .signal none (some w)

def addTask (task : HttpTask) (waiter : Option ι) : List (Act (Option ι) HttpTask) :=
  [.addTask none task, .next none, .next none, .next none] ++ [announce waiter, .next none]

abbrev Crew (ι : Type) := Pool (Option ι) HttpTask

variable [DecidableEq ι] [Fintype ι]

/-- Whether `add_task` gets to its end: a worker may hold the mutex, or the
signal may have to go to another thread. -/
def passes (s : Crew ι) (task : HttpTask) (waiter : Option ι) : Bool :=
  match (run Pool.step s (addTask task waiter)).place none with
  | .outside => true
  | _ => false

variable (parse : Reader)

def serve (s : Crew ι) : Event ι → Crew ι
  | .request call =>
    match (handling parse s.isStopped call.printed call).enqueued with
    | none => s
    | some task =>
      if passes s task call.waiter then run Pool.step s (addTask task call.waiter) else s
  | .getTask i => s.step (.getTask (some i))
  | .next i => s.step (.next (some i))
  | .wake i => s.step (.wake (some i))

/-- Whether the request is handled in this step: a call of `add_task` may be held
up. -/
def handled (s : Crew ι) (call : Call ι) : Bool :=
  match (handling parse s.isStopped call.printed call).enqueued with
  | none => true
  | some task => passes s task call.waiter

/-- The task of a request whose result says `ret` 0, whatever became of it. The
result counts as the handler makes it, even where the reply buffer cannot take it. -/
def acknowledged (s : Crew ι) : Event ι → List HttpTask
  | .request call =>
    match (handling parse s.isStopped true call).reply with
    | some result =>
      if result.ret = "0".toList ∧ handled parse s call = true then [requested parse call] else []
    | none => []
  | _ => []

/-- The task that leaves the queue in the critical section of `get_task`. -/
def returned (s : Crew ι) : Event ι → List HttpTask
  | .next i =>
    match s.place (some i) with
    | .getFront => s.taskQueue.take 1
    | _ => []
  | _ => []

variable {parse}

def Declined (h : Handling) : Prop :=
  h.enqueued = none ∧ ∀ result, h.reply = some result → result.ret ≠ "0".toList

theorem declined_of_silent {h : Handling} (hnone : h.enqueued = none) (hsilent : h.reply = none) :
    Declined h := by
  refine ⟨hnone, fun result hresult ↦ ?_⟩
  rw [hsilent] at hresult
  cases hresult

theorem declined_answer (around : Surroundings) (status msg : String) :
    Declined (.answer around none status msg "-1") := by
  refine ⟨rfl, fun result hresult hret ↦ ?_⟩
  have hcode := (answer_ret_iff around none status msg "-1" "0".toList).mp ⟨result, hresult, hret⟩
  exact absurd hcode.2 (by decide)

theorem handleDocument_outcome (stopped allocated : Bool) (data : Json) :
    (∀ printed, Declined (handleDocument ⟨stopped, allocated, printed⟩ data)) ∨
      ∃ task, taskOf data = some task ∧ ∀ printed,
        handleDocument ⟨stopped, allocated, printed⟩ data =
          .answer ⟨stopped, allocated, printed⟩ (some task) "success" "OK" "0" := by
  unfold handleDocument
  cases hasAll data required with
  | none => exact .inl fun _ ↦ declined_of_silent rfl rfl
  | some complete =>
    cases complete with
    | false => exact .inl fun _ ↦ declined_answer _ _ _
    | true =>
      cases taskOf data with
      | none => exact .inl fun _ ↦ declined_of_silent rfl rfl
      | some task =>
        cases stopped with
        | true => exact .inl fun _ ↦ declined_of_silent rfl rfl
        | false => exact .inr ⟨task, rfl, fun _ ↦ rfl⟩

theorem handleValue_outcome (stopped allocated : Bool) (data : Option Json) :
    (∀ printed, Declined (handleValue ⟨stopped, allocated, printed⟩ data)) ∨
      ∀ printed, handleValue ⟨stopped, allocated, printed⟩ data =
        .answer ⟨stopped, allocated, printed⟩ (some ((data.bind taskOf).getD ⟨[], [], [], [], []⟩))
          "success" "OK" "0" := by
  cases data with
  | none => exact .inl fun _ ↦ declined_of_silent rfl rfl
  | some data =>
    rcases handleDocument_outcome stopped allocated data with hno | ⟨task, htask, hok⟩
    · exact .inl hno
    · refine .inr fun printed ↦ ?_
      rw [handleValue, hok, Option.bind_some, htask, Option.getD_some]

omit [DecidableEq ι] [Fintype ι] in
/-- A request is declined, or its own task is pushed and its result says `ret` 0;
printing the result changes neither. -/
theorem handling_outcome (parse : Reader) (stopped : Bool) (call : Call ι) :
    (∀ printed, Declined (handling parse stopped printed call)) ∨
      ∀ printed, handling parse stopped printed call =
        .answer ⟨stopped, call.allocated, printed⟩ (some (requested parse call)) "success" "OK" "0" := by
  unfold handling calcsigProcess requested dataOf
  cases call.allocated with
  | false => exact .inl fun _ ↦ declined_of_silent rfl rfl
  | true =>
    cases call.request.post with
    | false => exact .inl fun _ ↦ declined_answer _ _ _
    | true =>
      cases document call.prior call.request.splits call.request.body with
      | none => exact handleValue_outcome stopped true call.stray
      | some szTemp => exact handleValue_outcome stopped true ((parse szTemp).map Prod.snd)

def getting : Place HttpTask → Bool
  | .addStopped _ | .addLock _ | .addPush _ | .addSignal | .addUnlock => false
  | _ => true

/-- Between two steps the event loop is in no call, and the workers are in
`get_task` only. -/
structure Staffed (s : Crew ι) : Prop where
  running : s.isStopped = false
  loop : s.place none = .outside
  workers : ∀ i, getting (s.place (some i)) = true

variable {s : Crew ι}

omit [DecidableEq ι] [Fintype ι] in
theorem staffed_init : Staffed (Pool.init : Crew ι) := ⟨rfl, rfl, fun _ ↦ rfl⟩

omit [DecidableEq ι] [Fintype ι] in
theorem Staffed.worker {s' : Crew ι} {i : ι} (h : Staffed s) (hstop : s'.isStopped = s.isStopped)
    (hothers : ∀ k, k ≠ some i → s'.place k = s.place k)
    (hi : getting (s'.place (some i)) = true) : Staffed s' := by
  refine ⟨hstop.trans h.running, (hothers none (by simp)).trans h.loop, fun j ↦ ?_⟩
  by_cases hj : j = i
  · rwa [hj]
  · rw [hothers (some j) (by simpa using hj)]
    exact h.workers j

theorem getting_next {i : Option ι} (h : getting (s.place i) = true) :
    getting ((s.next i).place i) = true := by
  cases hp : s.place i with
  | getLock | signalled | woken =>
    simp only [Pool.next, hp, Pool.lock]
    split <;> simp [hp, getting]
  | getStopped | getCheck => cases hs : s.isStopped <;> simp [Pool.next, hp, hs, getting]
  | getEmpty => cases hq : s.taskQueue <;> simp [Pool.next, hp, hq, getting]
  | getFront => cases hq : s.taskQueue <;> simp [Pool.next, hp, hq, getting]
  | addStopped | addLock | addPush | addSignal | addUnlock => simp [hp, getting] at h
  | _ => simp [Pool.next, hp, getting]

theorem staffed_next (h : Staffed s) (i : ι) : Staffed (s.next (some i)) :=
  h.worker (next_isStopped s _) (fun _ hk ↦ next_place_of_ne s hk) (getting_next (h.workers i))

theorem queue_next {i : Option ι} (h : getting (s.place i) = true) :
    s.taskQueue = (match s.place i with
      | .getFront => s.taskQueue.take 1
      | _ => []) ++ (s.next i).taskQueue := by
  cases hp : s.place i with
  | getLock | signalled | woken =>
    simp only [Pool.next, hp, Pool.lock]
    split <;> rfl
  | getFront => cases hq : s.taskQueue <;> simp [Pool.next, hp, hq]
  | addPush | addLock | addSignal => simp [hp, getting] at h
  | _ => simp [Pool.next, hp]

theorem addTask_push (h : Staffed s) (hfree : s.mutex = none) (task : HttpTask) :
    ∃ s' : Crew ι, run Pool.step s [.addTask none task, .next none, .next none, .next none] = s' ∧
      s'.place none = .addSignal ∧ s'.taskQueue = s.taskQueue ++ [task] ∧
      s'.isStopped = false ∧ ∀ i, s'.place (some i) = s.place (some i) := by
  refine ⟨_, rfl, ?_⟩
  simp [run, Pool.step, Pool.enter, Pool.next, Pool.lock, h.loop, h.running, hfree]

theorem addTask_blocked (h : Staffed s) {j : Option ι} (hj : s.mutex = some j) (task : HttpTask)
    (waiter : Option ι) : passes s task waiter = false := by
  cases waiter <;>
    simp [passes, addTask, announce, run, Pool.step, Pool.enter, Pool.next, Pool.lock, Pool.signal,
      h.loop, h.running, hj]

theorem announce_passes (hloop : s.place none = .addSignal) {waiter : Option ι}
    (hout : (run Pool.step s [announce waiter, .next none]).place none = .outside) :
    (run Pool.step s [announce waiter, .next none]).taskQueue = s.taskQueue ∧
      (run Pool.step s [announce waiter, .next none]).isStopped = s.isStopped ∧
      ∀ i, getting (s.place (some i)) = true →
        getting ((run Pool.step s [announce waiter, .next none]).place (some i)) = true := by
  cases waiter with
  | none =>
    by_cases hno : ∀ w, (s.place w).isAsleep = false
    · simp [run, announce, Pool.step, Pool.next, hloop, hno]
    · simp [run, announce, Pool.step, Pool.next, hloop, hno] at hout
  | some w =>
    by_cases hw : s.place (some w) = .asleep
    · have hn : s.signal none (some w) = (s.goto (some w) .signalled).goto none .addUnlock := by
        simp only [Pool.signal, hloop, hw]
      simp only [run, announce, List.foldl_cons, List.foldl_nil, Pool.step, hn]
      refine ⟨by simp [Pool.next], by simp [Pool.next], fun i hi ↦ ?_⟩
      by_cases hiw : i = w
      · simp [Pool.next, hiw, getting]
      · simpa [Pool.next, hiw] using hi
    · have hn : s.signal none (some w) = s := by
        unfold Pool.signal
        split <;> rename_i hasleep
        · exact (hw hasleep).elim
        · rfl
      simp only [run, announce, List.foldl_cons, List.foldl_nil, Pool.step, hn, Pool.next,
        hloop] at hout
      split at hout
      · simp at hout
      · simp [hloop] at hout

theorem addTask_passes (h : Staffed s) {task : HttpTask} {waiter : Option ι}
    (hp : passes s task waiter = true) :
    (run Pool.step s (addTask task waiter)).taskQueue = s.taskQueue ++ [task] ∧
      Staffed (run Pool.step s (addTask task waiter)) := by
  cases hm : s.mutex with
  | some j => simp [addTask_blocked h hm] at hp
  | none =>
    obtain ⟨s', hs', hloop, hqueue, hstop, hplace⟩ := addTask_push h hm task
    have hout : (run Pool.step s (addTask task waiter)).place none = .outside := by
      unfold passes at hp
      split at hp
      · assumption
      · cases hp
    rw [addTask, run_append, hs'] at hout ⊢
    obtain ⟨hqueue', hstop', hworkers⟩ := announce_passes hloop hout
    refine ⟨hqueue'.trans hqueue, hstop'.trans hstop, hout, fun i ↦ hworkers i ?_⟩
    rw [hplace]
    exact h.workers i

theorem passes_of_free (h : Staffed s) (hfree : s.mutex = none) (task : HttpTask) :
    ∃ waiter, passes s task waiter = true := by
  obtain ⟨s', hs', hloop, -⟩ := addTask_push h hfree task
  by_cases hno : ∀ w, (s'.place w).isAsleep = false
  · refine ⟨none, ?_⟩
    rw [passes, addTask, run_append, hs']
    simp [run, announce, Pool.step, Pool.next, hloop, hno]
  · obtain ⟨w, hw⟩ : ∃ w, s'.place w = .asleep := by
      simpa [Place.isAsleep_eq_true_iff] using hno
    cases w with
    | none => simp [hloop] at hw
    | some i =>
      refine ⟨some i, ?_⟩
      rw [passes, addTask, run_append, hs']
      simp [run, announce, Pool.step, Pool.signal, Pool.next, hloop, hw]

theorem staffed_serve (parse : Reader) (h : Staffed s) (e : Event ι) : Staffed (serve parse s e) := by
  cases e with
  | next i => exact staffed_next h i
  | getTask i =>
    simp only [serve, Pool.step, Pool.enter]
    split
    · exact h.worker (i := i) rfl (fun k hk ↦ by simp [hk]) (by simp [getting])
    · exact h
  | wake i =>
    simp only [serve, Pool.step, Pool.wake]
    split
    · exact h.worker (i := i) rfl (fun k hk ↦ by simp [hk]) (by simp [getting])
    · exact h
  | request call =>
    simp only [serve]
    split
    · exact h
    · split <;> rename_i hp
      · exact (addTask_passes h hp).2
      · exact h

theorem acknowledged_request (parse : Reader) (s : Crew ι) (call : Call ι) :
    acknowledged parse s (.request call) =
      match (handling parse s.isStopped call.printed call).enqueued with
      | none => []
      | some task => if passes s task call.waiter then [task] else [] := by
  rcases handling_outcome parse s.isStopped call with hno | hok
  · rw [(hno call.printed).1, acknowledged]
    split
    · rename_i result hresult
      exact if_neg fun hret ↦ (hno true).2 result hresult hret.1
    · rfl
  · simp only [acknowledged, handled, hok, Handling.answer, if_true, true_and]

theorem queue_serve (parse : Reader) (h : Staffed s) (e : Event ι) :
    s.taskQueue ++ acknowledged parse s e = returned s e ++ (serve parse s e).taskQueue := by
  cases e with
  | next i => simpa [acknowledged, returned, serve, Pool.step] using queue_next (h.workers i)
  | getTask i =>
    simp only [acknowledged, returned, serve, Pool.step, Pool.enter]
    split <;> simp
  | wake i =>
    simp only [acknowledged, returned, serve, Pool.step, Pool.wake]
    split <;> simp
  | request call =>
    rw [acknowledged_request]
    simp only [returned, serve, List.nil_append]
    cases (handling parse s.isStopped call.printed call).enqueued with
    | none => simp
    | some task =>
      cases hp : passes s task call.waiter with
      | false => simp [hp]
      | true => simpa [hp] using (addTask_passes h hp).1.symm

section Sample

def orderText : Foundation.Text.Str :=
  "\x7b\"action_id\":\"1\",\"src_url\":\"u\",\"callback_url\":\"c\"\x7d".toList

def orderReader : Reader := fun s ↦
  if s = orderText then
    some (true, .object [("action_id".toList, .string "1".toList),
      ("src_url".toList, .string "u".toList), ("callback_url".toList, .string "c".toList)])
  else some (false, .null)

def sampleCall : Call Unit :=
  ⟨true, true, bufferAfter [] (by decide), ⟨true, orderText, []⟩, none, none⟩

end Sample

end Calcsig.Server.TaskFlow
