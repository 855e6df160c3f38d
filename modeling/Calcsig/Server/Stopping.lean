import Calcsig.Server.TaskFlow

namespace Calcsig.Server.Stopping

open Foundation.Documents Foundation.Runs Worker Request TaskFlow ThreadPool.Model

variable {ι : Type}

/-- Where a worker is in its loop: at the test of the flag, in a call of
`get_task`, at work on a task, or returned. -/
inductive Phase
  | test
  | calling
  | working
  | gone
deriving DecidableEq

/-- The flag is not initialised, so a run starts with either value. Whether
`stop` has returned is not part of the program. -/
structure HttpServer (ι : Type) where
  crew : Crew ι
  phase : ι → Phase
  isstop : Bool
  stopReturned : Bool

inductive Turn (ι : Type)
  | request : Call ι → Turn ι
  | test : ι → Turn ι
  | next : ι → Turn ι
  | wake : ι → Turn ι
  | finish : ι → Turn ι
  | stop : Turn ι

/-- What a step in `get_task` means for the loop: with NULL the worker goes
back to the test. -/
def comeback : Place HttpTask → Place HttpTask → Phase
  | .getUnlock _, .outside => .working
  | _, .outside => .test
  | _, _ => .calling

variable [DecidableEq ι] [Fintype ι] (parse : Reader)

namespace HttpServer

def init (isstop : Bool) : HttpServer ι := ⟨Pool.init, fun _ ↦ .test, isstop, false⟩

def goto (s : HttpServer ι) (i : ι) (p : Phase) : HttpServer ι :=
  { s with phase := Function.update s.phase i p }

def stop (s : HttpServer ι) : HttpServer ι := { s with isstop := false, stopReturned := true }

def test (s : HttpServer ι) (i : ι) : HttpServer ι :=
  match s.phase i with
  | .test =>
    if s.isstop then s.goto i .gone
    else { s.goto i .calling with crew := serve parse s.crew (.getTask i) }
  | _ => s

def after (s : HttpServer ι) (i : ι) : Phase :=
  comeback (s.crew.place (some i)) ((serve parse s.crew (.next i)).place (some i))

def next (s : HttpServer ι) (i : ι) : HttpServer ι :=
  match s.phase i with
  | .calling => { s.goto i (s.after parse i) with crew := serve parse s.crew (.next i) }
  | _ => s

def finish (s : HttpServer ι) (i : ι) : HttpServer ι :=
  match s.phase i with
  | .working => s.goto i .test
  | _ => s

def turn (s : HttpServer ι) : Turn ι → HttpServer ι
  | .request call => { s with crew := serve parse s.crew (.request call) }
  | .test i => s.test parse i
  | .next i => s.next parse i
  | .wake i => { s with crew := serve parse s.crew (.wake i) }
  | .finish i => s.finish i
  | .stop => s.stop

def calls (s : HttpServer ι) (i : ι) : Turn ι → Bool
  | .test j => j = i ∧ s.phase i = .test ∧ s.isstop = false
  | _ => false

def obtains (s : HttpServer ι) (i : ι) : Turn ι → Bool
  | .next j => j = i ∧ s.phase i = .calling ∧ s.after parse i = .working
  | _ => false

def obtainedLate (i : ι) (s : HttpServer ι) (e : Turn ι) : ℕ :=
  if s.stopReturned = true ∧ s.obtains parse i e = true then 1 else 0

/-- No worker calls `get_task` out of its loop test after `stop` has returned. -/
def NoLateCall (s : HttpServer ι) (e : Turn ι) : Prop :=
  s.stopReturned = true → ∀ i, s.calls i e = false

/-- No worker begins another iteration after `stop` has returned, and each
obtains at most one more task. -/
def StopEffective (s : HttpServer ι) (turns : List (Turn ι)) : Prop :=
  Along (turn parse) NoLateCall s turns ∧
    ∀ i, tally (turn parse) (obtainedLate parse i) s turns ≤ 1

def NoLateTest (s : HttpServer ι) (e : Turn ι) : Prop :=
  s.stopReturned = true → ∀ i, e = .test i → s.phase i ≠ .test

end HttpServer

open HttpServer

section Steps

variable {s : HttpServer ι}

def due : Phase → ℕ
  | .calling => 1
  | _ => 0

theorem due_le (p : Phase) : due p ≤ 1 := by cases p <;> simp [due]

theorem turn_flags (s : HttpServer ι) (e : Turn ι) :
    (s.turn parse e).isstop = false ∧ (s.turn parse e).stopReturned = true ∨
      (s.turn parse e).isstop = s.isstop ∧ (s.turn parse e).stopReturned = s.stopReturned := by
  cases e with
  | stop => exact .inl ⟨rfl, rfl⟩
  | request call => exact .inr ⟨rfl, rfl⟩
  | wake i => exact .inr ⟨rfl, rfl⟩
  | test i =>
    right
    simp only [turn, HttpServer.test]
    split
    · split <;> exact ⟨rfl, rfl⟩
    · exact ⟨rfl, rfl⟩
  | next i =>
    right
    simp only [turn, HttpServer.next]
    split <;> exact ⟨rfl, rfl⟩
  | finish i =>
    right
    simp only [turn, HttpServer.finish]
    split <;> exact ⟨rfl, rfl⟩

theorem test_phase (s : HttpServer ι) (i j : ι) :
    (s.test parse j).phase i =
      if i = j ∧ s.phase j = .test then (if s.isstop then .gone else .calling) else s.phase i := by
  unfold HttpServer.test
  split
  · rename_i hp
    cases s.isstop <;> simp [goto, Function.update_apply, hp]
  · rename_i hp
    rw [if_neg (fun h ↦ hp h.2)]

theorem next_phase (s : HttpServer ι) (i j : ι) :
    (s.next parse j).phase i =
      if i = j ∧ s.phase j = .calling then s.after parse j else s.phase i := by
  unfold HttpServer.next
  split
  · rename_i hp
    simp [goto, Function.update_apply, hp]
  · rename_i hp
    rw [if_neg (fun h ↦ hp h.2)]

omit [Fintype ι] in
theorem finish_phase (s : HttpServer ι) (i j : ι) :
    (s.finish j).phase i = if i = j ∧ s.phase j = .working then .test else s.phase i := by
  unfold HttpServer.finish
  split
  · rename_i hp
    simp [goto, Function.update_apply, hp]
  · rename_i hp
    rw [if_neg (fun h ↦ hp h.2)]

theorem obtainedLate_eq_zero {i : ι} {e : Turn ι} (h : ¬ (e = .next i ∧ s.phase i = .calling)) :
    obtainedLate parse i s e = 0 := by
  refine if_neg (fun hlate ↦ ?_)
  cases e with
  | next j =>
    simp only [obtains, decide_eq_true_eq] at hlate
    obtain ⟨-, rfl, hp, -⟩ := hlate
    exact h ⟨rfl, hp⟩
  | _ => simp [obtains] at hlate

theorem obtainedLate_calling {i : ι} (h : s.phase i = .calling) :
    obtainedLate parse i s (.next i) + due (s.after parse i) ≤ 1 := by
  unfold obtainedLate
  split
  · rename_i hlate
    have hafter : s.after parse i = .working := by simpa [obtains, h] using hlate.2
    simp [hafter, due]
  · simpa using due_le _

theorem turn_due {i : ι} {e : Turn ι} (h : s.calls i e = false) :
    obtainedLate parse i s e + due ((s.turn parse e).phase i) ≤ due (s.phase i) := by
  cases e with
  | stop | request | wake =>
    rw [obtainedLate_eq_zero parse (by simp), Nat.zero_add]
    exact le_rfl
  | test j =>
    rw [obtainedLate_eq_zero parse (by simp), Nat.zero_add, turn, test_phase]
    split
    · rename_i hi
      obtain ⟨rfl, hp⟩ := hi
      have hflag : s.isstop = true := by simpa [calls, hp] using h
      simp [hflag, due]
    · exact le_rfl
  | next j =>
    rw [turn, next_phase]
    split
    · rename_i hi
      obtain ⟨rfl, hp⟩ := hi
      have hdue : due (s.phase i) = 1 := by rw [hp]; rfl
      rw [hdue]
      exact obtainedLate_calling parse hp
    · rename_i hi
      have hother : ¬ (Turn.next j = .next i ∧ s.phase i = .calling) := by
        rintro ⟨hij, hp⟩
        cases hij
        exact hi ⟨rfl, hp⟩
      rw [obtainedLate_eq_zero parse hother, Nat.zero_add]
  | finish j =>
    rw [obtainedLate_eq_zero parse (by simp), Nat.zero_add, turn, finish_phase]
    split
    · simp [due]
    · exact le_rfl

/-- The account of worker `i`: the tasks it has obtained since `stop` returned
and the one that is due make at most one. -/
def Account (i : ι) (s : HttpServer ι) (n : ℕ) : Prop :=
  n + due (s.phase i) ≤ 1 ∧ (s.stopReturned = false → n = 0)

theorem account_turn {i : ι} {n : ℕ} {e : Turn ι} (h : Account i s n)
    (he : s.NoLateCall e) :
    Account i (s.turn parse e) (n + obtainedLate parse i s e) := by
  have hle := h.1
  cases hstop : s.stopReturned with
  | true =>
    have hdue := turn_due parse (he hstop i)
    refine ⟨by omega, fun hlate ↦ ?_⟩
    rcases turn_flags parse s e with ⟨-, hr⟩ | ⟨-, hr⟩
    · simp [hr] at hlate
    · simp [hr, hstop] at hlate
  | false =>
    have hzero : obtainedLate parse i s e = 0 := by simp [obtainedLate, hstop]
    rw [hzero, h.2 hstop]
    exact ⟨by simpa using due_le _, fun _ ↦ rfl⟩

theorem obtained_at_most_one (s : HttpServer ι) {turns : List (Turn ι)}
    (h : Along (turn parse) NoLateCall s turns) (i : ι) :
    tally (turn parse) (obtainedLate parse i) s turns ≤ 1 := by
  have hstart : Account i s 0 := ⟨by simpa using due_le _, fun _ ↦ rfl⟩
  have hend := run_tally (f := obtainedLate parse i)
    (fun s n e hn he ↦ account_turn parse hn he) hstart h
  have hle := hend.1
  omega

end Steps

/-- `stop` leaves the flag as the loop test wants it: it is effective exactly in
the runs in which no worker comes to its loop test any more. -/
theorem stop_effective_iff (parse : Reader) (isstop : Bool) (turns : List (Turn ι)) :
    StopEffective parse (init isstop) turns ↔ Along (turn parse) NoLateTest (init isstop) turns := by
  have hcalls : ∀ (s : HttpServer ι) (e : Turn ι), NoLateTest s e → NoLateCall s e := by
    intro s e hno hstop i
    cases e with
    | test j =>
      have hne := hno hstop j rfl
      by_cases hj : j = i
      · subst hj
        simp [calls, hne]
      · simp [calls, hj]
    | _ => rfl
  constructor
  · rintro ⟨h, -⟩
    refine along_of_invariant (I := fun s ↦ s.stopReturned = true → s.isstop = false)
      (fun s e hs _ _ hstop ↦ ?_) (fun s e hs he hstop i hi hphase ↦ ?_) (by simp [init]) h
    · rcases turn_flags parse s e with ⟨hflag, -⟩ | ⟨hflag, hr⟩
      · exact hflag
      · rw [hflag]
        exact hs (hr.symm.trans hstop)
    · have hcall := he hstop i
      simp [calls, hi, hphase, hs hstop] at hcall
  · intro h
    have hnone := along_of_invariant (I := fun _ ↦ True) (fun _ _ _ _ _ ↦ trivial)
      (fun s e _ ↦ hcalls s e) trivial h
    exact ⟨hnone, obtained_at_most_one parse _ hnone⟩

section Sample

def sampleRound : List (Turn Unit) := .test () :: List.replicate 6 (.next ()) ++ [.finish ()]

/-- The server is stopped, and its only worker goes on to process two tasks. -/
theorem stop_ignored :
    let turns := [.stop, .request sampleCall, .request sampleCall] ++ sampleRound ++ sampleRound
    tally (turn orderReader) (obtainedLate orderReader ()) (init false) turns = 2 ∧
      ¬ StopEffective orderReader (init false) turns := by
  intro turns
  have htwo : tally (turn orderReader) (obtainedLate orderReader ()) (init false)
      turns = 2 := by decide +kernel
  refine ⟨htwo, fun h ↦ ?_⟩
  have hle := h.2 ()
  rw [htwo] at hle
  omega

end Sample

end Calcsig.Server.Stopping
