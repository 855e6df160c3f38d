import Calcsig.Foundation.Census
import Calcsig.Foundation.Runs
import Mathlib.Algebra.Order.Ring.Int

namespace Calcsig.Server.Startup

open Foundation.Runs Foundation.Census

/-- Where the thread is that has called `httpServer::start`: in the loop that makes
the other threads, before its next access to what it shares with them, or behind
its wait for them. -/
inductive Main
  | creating (left : ℕ)
  | lock
  | test
  | wait
  | asleep
  | signalled
  | unlock
  | serving
  | raised
deriving DecidableEq

/-- Where a new thread is before its loop over the tasks. -/
inductive Worker
  | lock
  | count
  | signal
  | unlock
  | loop
deriving DecidableEq

inductive Party
  | main
  | worker (i : ℕ)
deriving DecidableEq

structure Launch where
  initLock : Option Party
  initCount : ℕ
  main : Main
  workers : List Worker
deriving DecidableEq

/-- A turn of the main thread, with the outcome of `pthread_create` if that is its
next call, a turn of a worker, or a wake-up out of the wait that nobody signalled. -/
inductive Turn
  | main (created : Bool)
  | worker (i : ℕ)
  | wake

def Turn.isWake : Turn → Bool
  | wake => true
  | _ => false

def minThread (min : ℤ) : ℕ := (if min > 1 then min else 1).toNat

namespace Launch

variable (threadnum : ℤ)

def init : Launch := ⟨none, 0, .creating (minThread threadnum), []⟩

def stepMain (s : Launch) (created : Bool) : Launch :=
  match s.main with
  | .creating 0 => { s with main := .lock }
  | .creating (left + 1) =>
    if created then { s with main := .creating left, workers := s.workers ++ [.lock] }
    else { s with main := .raised }
  | .lock | .signalled =>
    if s.initLock = none then { s with main := .test, initLock := some .main } else s
  | .test => { s with main := if (s.initCount : ℤ) < threadnum then .wait else .unlock }
  | .wait => { s with main := .asleep, initLock := none }
  | .unlock => { s with main := .serving, initLock := none }
  | .asleep | .serving | .raised => s

def goto (s : Launch) (i : ℕ) (p : Worker) : Launch := { s with workers := s.workers.set i p }

def stepWorker (s : Launch) (i : ℕ) : Launch :=
  match s.workers[i]? with
  | none | some .loop => s
  | some .lock =>
    if s.initLock = none then { s.goto i .count with initLock := some (.worker i) } else s
  | some .count => { s.goto i .signal with initCount := s.initCount + 1 }
  | some .signal =>
    { s.goto i .unlock with main := if s.main = .asleep then .signalled else s.main }
  | some .unlock => { s.goto i .loop with initLock := none }

/-- The exception of `threadpool_98::start` ends the process. -/
def step (s : Launch) (turn : Turn) : Launch :=
  if s.main = .raised then s
  else
    match turn with
    | .main created => s.stepMain threadnum created
    | .worker i => s.stepWorker i
    | .wake => if s.main = .asleep then { s with main := .signalled } else s

end Launch

section Moves

def Main.inside : Main → Bool
  | .test | .wait | .unlock => true
  | _ => false

def Worker.inside : Worker → Bool
  | .count | .signal | .unlock => true
  | _ => false

def Worker.registered : Worker → Bool
  | .signal | .unlock | .loop => true
  | _ => false

variable (threadnum : ℤ)

/-- The steps of the main thread that touch nothing but its own place. -/
inductive MainMove (s : Launch) : Main → Prop
  | begins : s.main = .creating 0 → MainMove s .lock
  | fails {left : ℕ} : s.main = .creating (left + 1) → MainMove s .raised
  | waits : s.main = .test → (s.initCount : ℤ) < threadnum → MainMove s .wait
  | passes : s.main = .test → threadnum ≤ s.initCount → MainMove s .unlock

/-- Everything a turn can do; the flag marks the wake-up that nobody signalled. -/
inductive Move (s : Launch) : Bool → Launch → Prop
  | own {p : Main} : MainMove threadnum s p → Move s false { s with main := p }
  | creates {left : ℕ} : s.main = .creating (left + 1) →
      Move s false { s with main := .creating left, workers := s.workers ++ [.lock] }
  | locks : s.main = .lock ∨ s.main = .signalled → s.initLock = none →
      Move s false { s with main := .test, initLock := some .main }
  | sleeps : s.main = .wait → Move s false { s with main := .asleep, initLock := none }
  | serves : s.main = .unlock → Move s false { s with main := .serving, initLock := none }
  | enters {i : ℕ} : s.workers[i]? = some .lock → s.initLock = none →
      Move s false { s.goto i .count with initLock := some (.worker i) }
  | counts {i : ℕ} : s.workers[i]? = some .count →
      Move s false { s.goto i .signal with initCount := s.initCount + 1 }
  | rouses {i : ℕ} : s.workers[i]? = some .signal → s.main = .asleep →
      Move s false { s.goto i .unlock with main := .signalled }
  | calls {i : ℕ} : s.workers[i]? = some .signal → s.main ≠ .asleep → Move s false (s.goto i .unlock)
  | leaves {i : ℕ} : s.workers[i]? = some .unlock → Move s false { s.goto i .loop with initLock := none }
  | wakes : s.main = .asleep → Move s true { s with main := .signalled }

variable (s : Launch)

theorem stepMain_cases (created : Bool) :
    s.stepMain threadnum created = s ∨ Move threadnum s false (s.stepMain threadnum created) := by
  rw [Launch.stepMain]
  split
  · exact .inr (.own (.begins ‹_›))
  · split
    · exact .inr (.creates ‹_›)
    · exact .inr (.own (.fails ‹_›))
  · split
    · exact .inr (.locks (.inl ‹_›) ‹_›)
    · exact .inl rfl
  · split
    · exact .inr (.locks (.inr ‹_›) ‹_›)
    · exact .inl rfl
  · split
    · exact .inr (.own (.waits ‹_› ‹_›))
    · exact .inr (.own (.passes ‹_› (Int.not_lt.mp ‹_›)))
  · exact .inr (.sleeps ‹_›)
  · exact .inr (.serves ‹_›)
  · exact .inl rfl
  · exact .inl rfl
  · exact .inl rfl

theorem stepWorker_cases (i : ℕ) : s.stepWorker i = s ∨ Move threadnum s false (s.stepWorker i) := by
  rw [Launch.stepWorker]
  split
  · exact .inl rfl
  · exact .inl rfl
  · split
    · exact .inr (.enters ‹_› ‹_›)
    · exact .inl rfl
  · exact .inr (.counts ‹_›)
  · split
    · exact .inr (.rouses ‹_› ‹_›)
    · exact .inr (.calls ‹_› ‹_›)
  · exact .inr (.leaves ‹_›)

theorem step_cases (turn : Turn) :
    s.step threadnum turn = s ∨ Move threadnum s turn.isWake (s.step threadnum turn) := by
  unfold Launch.step
  split
  · exact .inl rfl
  · cases turn with
    | main created => exact stepMain_cases threadnum s created
    | worker i => exact stepWorker_cases threadnum s i
    | wake =>
      dsimp only
      split
      · exact .inr (.wakes ‹_›)
      · exact .inl rfl

end Moves

section Mutex

variable {threadnum : ℤ} {s s' : Launch} {b : Bool} {i : ℕ} {p q : Worker}

def Launch.inside (s : Launch) : Party → Bool
  | .main => s.main.inside
  | .worker i => s.workers[i]?.any Worker.inside

def Held (s : Launch) : Prop := ∀ party, s.initLock = some party ↔ s.inside party = true

theorem inside_goto (h : s.workers[i]? = some q) (party : Party) :
    (s.goto i p).inside party = if party = .worker i then p.inside else s.inside party := by
  cases party with
  | main => rfl
  | worker j =>
    have hlt := (List.getElem?_eq_some_iff.mp h).1
    by_cases hj : j = i
    · subst hj
      simp [Launch.inside, Launch.goto, hlt]
    · simp [Launch.inside, Launch.goto, hj, List.getElem?_set_ne (Ne.symm hj)]

theorem Held.stay (h : Held s) (hlock : s'.initLock = s.initLock)
    (hsame : ∀ party, s'.inside party = s.inside party) : Held s' := by
  intro party
  rw [hlock, hsame]
  exact h party

theorem Held.enter (h : Held s) (hfree : s.initLock = none) (one : Party)
    (hlock : s'.initLock = some one) (hone : s'.inside one = true)
    (hothers : ∀ party, party ≠ one → s'.inside party = s.inside party) : Held s' := by
  intro party
  by_cases hp : party = one
  · rw [hp]
    exact iff_of_true hlock hone
  · have hout := (not_iff_not.mpr (h party)).mp (by simp [hfree])
    rw [hothers party hp]
    refine iff_of_false (fun hin ↦ ?_) hout
    exact hp (Option.some.inj (hin.symm.trans hlock))

theorem Held.leave (h : Held s) (one : Party) (hin : s.inside one = true)
    (hlock : s'.initLock = none) (hone : s'.inside one = false)
    (hothers : ∀ party, party ≠ one → s'.inside party = s.inside party) : Held s' := by
  intro party
  rw [hlock]
  refine iff_of_false (by simp) ?_
  by_cases hp : party = one
  · simp [hp, hone]
  · rw [hothers party hp, ← h party, (h one).mpr hin]
    exact fun he ↦ hp (Option.some.inj he).symm

theorem inside_of_main (hworkers : s'.workers = s.workers) (party : Party) (hp : party ≠ .main) :
    s'.inside party = s.inside party := by
  cases party with
  | main => exact absurd rfl hp
  | worker j => rw [Launch.inside, Launch.inside, hworkers]

theorem Held.goto (h : Held s) (hi : s.workers[i]? = some q)
    (hworkers : s'.workers = (s.goto i p).workers) (hpq : p.inside = q.inside)
    (hlock : s'.initLock = s.initLock) (hmain : s'.main.inside = s.main.inside) : Held s' := by
  refine h.stay hlock fun party ↦ ?_
  cases party with
  | main => exact hmain
  | worker j =>
    have hgoto := inside_goto (p := p) hi (.worker j)
    rw [Launch.inside, hworkers]
    refine hgoto.trans ?_
    split
    · rename_i hj
      rw [hj, hpq, Launch.inside, hi]
      rfl
    · rfl

theorem held_move (h : Held s) (hm : Move threadnum s b s') : Held s' := by
  have hmain {m m' : Main} (hs : s.main = m) (hin : m'.inside = m.inside) :
      ∀ party, Launch.inside { s with main := m' } party = s.inside party := by
    intro party
    cases party with
    | main => rw [Launch.inside, Launch.inside, hs, hin]
    | worker j => rfl
  cases hm with
  | own hmove =>
    cases hmove with
    | begins hs => exact h.stay rfl (hmain hs rfl)
    | fails hs => exact h.stay rfl (hmain hs rfl)
    | waits hs => exact h.stay rfl (hmain hs rfl)
    | passes hs => exact h.stay rfl (hmain hs rfl)
  | creates hs =>
    refine h.stay rfl fun party ↦ ?_
    cases party with
    | main => rw [Launch.inside, Launch.inside, hs]; rfl
    | worker j =>
      simp only [Launch.inside, List.getElem?_append, List.getElem?_singleton]
      split
      · rfl
      · rename_i hj
        rw [List.getElem?_eq_none (Nat.not_lt.mp hj)]
        split <;> rfl
  | locks hs hfree =>
    refine h.enter hfree .main rfl rfl ?_
    exact inside_of_main rfl
  | sleeps hs =>
    refine h.leave .main (by rw [Launch.inside, hs]; rfl) rfl rfl ?_
    exact inside_of_main rfl
  | serves hs =>
    refine h.leave .main (by rw [Launch.inside, hs]; rfl) rfl rfl ?_
    exact inside_of_main rfl
  | @enters i hi hfree =>
    refine h.enter hfree (.worker i) rfl ((inside_goto hi _).trans (if_pos rfl)) fun party hp ↦ ?_
    exact (inside_goto hi party).trans (if_neg hp)
  | counts hi => exact h.goto hi rfl rfl rfl rfl
  | rouses hi hs => exact h.goto hi rfl rfl rfl (by rw [hs]; rfl)
  | calls hi => exact h.goto hi rfl rfl rfl rfl
  | @leaves i hi =>
    refine h.leave (.worker i) (by rw [Launch.inside, hi]; rfl) rfl
      ((inside_goto hi _).trans (if_pos rfl)) fun party hp ↦ ?_
    exact (inside_goto hi party).trans (if_neg hp)
  | wakes hs => exact h.stay rfl (hmain hs rfl)

end Mutex

section Counting

variable {threadnum : ℤ} {s s' : Launch} {b : Bool} {i : ℕ} {p q : Worker}

def Main.left : Main → ℕ
  | .creating left => left
  | _ => 0

/-- Each thread is made once and counts itself once. -/
structure Counted (threadnum : ℤ) (s : Launch) : Prop where
  count : s.initCount = s.workers.countP Worker.registered
  made : s.main ≠ .raised → s.workers.length + s.main.left = minThread threadnum

theorem Counted.goto (h : Counted threadnum s) (hi : s.workers[i]? = some q)
    (hworkers : s'.workers = (s.goto i p).workers)
    (hcount : s'.initCount + q.registered.toNat = s.initCount + p.registered.toNat)
    (hmain : s'.main = s.main ∨ s.main = .asleep ∧ s'.main = .signalled) : Counted threadnum s' := by
  refine ⟨?_, fun hne ↦ ?_⟩
  · have hset := countP_set_add Worker.registered hi p
    have hnew : s'.workers.countP Worker.registered = (s.workers.set i p).countP Worker.registered := by
      rw [hworkers, Launch.goto]
    rw [h.count] at hcount
    omega
  · have hlength : s'.workers.length = s.workers.length := by rw [hworkers, Launch.goto, List.length_set]
    rw [hlength]
    rcases hmain with hmain | ⟨hs, hs'⟩
    · rw [hmain] at hne ⊢
      exact h.made hne
    · have hmade := h.made (by rw [hs]; exact fun hraised ↦ by cases hraised)
      rw [hs] at hmade
      rw [hs']
      exact hmade

theorem counted_move (h : Counted threadnum s) (hm : Move threadnum s b s') : Counted threadnum s' := by
  have hmain {m m' : Main} (hs : s.main = m) (hne : m ≠ .raised) (hleft : m'.left = m.left) :
      s.workers.length + m'.left = minThread threadnum := by
    rw [hleft, ← hs]
    exact h.made (hs ▸ hne)
  cases hm with
  | own hmove =>
    refine ⟨h.count, fun hne ↦ ?_⟩
    cases hmove with
    | begins hs => exact hmain hs (by simp) rfl
    | fails hs => exact absurd rfl hne
    | waits hs => exact hmain hs (by simp) rfl
    | passes hs => exact hmain hs (by simp) rfl
  | creates hs =>
    refine ⟨?_, fun _ ↦ ?_⟩
    · rw [List.countP_append, ← h.count]
      rfl
    · have hmade := h.made (by simp [hs])
      rw [hs] at hmade
      rw [List.length_append, ← hmade]
      simp only [List.length_singleton, Main.left]
      omega
  | locks hs hfree =>
    refine ⟨h.count, fun _ ↦ ?_⟩
    rcases hs with hs | hs
    · exact hmain hs (by simp) rfl
    · exact hmain hs (by simp) rfl
  | sleeps hs => exact ⟨h.count, fun _ ↦ hmain hs (by simp) rfl⟩
  | serves hs => exact ⟨h.count, fun _ ↦ hmain hs (by simp) rfl⟩
  | enters hi hfree => exact h.goto hi rfl rfl (.inl rfl)
  | counts hi => exact h.goto hi rfl rfl (.inl rfl)
  | rouses hi hs => exact h.goto hi rfl rfl (.inr ⟨hs, rfl⟩)
  | calls hi hs => exact h.goto hi rfl rfl (.inl rfl)
  | leaves hi => exact h.goto hi rfl rfl (.inl rfl)
  | wakes hs => exact ⟨h.count, fun _ ↦ hmain hs (by simp) rfl⟩

end Counting

section Waiting

variable {threadnum : ℤ} {s s' : Launch} {b : Bool}

/-- What the main thread relies on where it waits and where it goes on. A thread that
completes the count while it sleeps has its signal still to give. -/
def Aware (threadnum : ℤ) (s : Launch) : Prop :=
  match s.main with
  | .wait => (s.initCount : ℤ) < threadnum
  | .asleep => (s.initCount : ℤ) < threadnum ∨ .signal ∈ s.workers
  | .unlock | .serving => threadnum ≤ s.initCount
  | _ => True

theorem outside_of_inside (h : Held s) {i : ℕ} {p : Worker} (hi : s.workers[i]? = some p)
    (hp : p.inside = true) : s.main.inside = false := by
  have hworker := (h (.worker i)).mpr (by rw [Launch.inside, hi]; exact hp)
  rw [Bool.eq_false_iff]
  intro hmain
  cases ((h .main).mpr hmain).symm.trans hworker

theorem Aware.stay (h : Aware threadnum s) (hmain : s'.main = s.main)
    (hcount : s'.initCount = s.initCount) (hsignal : .signal ∈ s.workers → .signal ∈ s'.workers) :
    Aware threadnum s' := by
  unfold Aware at h ⊢
  rw [hmain, hcount]
  cases hs : s.main with
  | asleep =>
    rw [hs] at h
    exact h.imp id hsignal
  | _ =>
    rw [hs] at h
    exact h

theorem signal_mem_set {l : List Worker} {i : ℕ} {q : Worker} (hi : l[i]? = some q) (hq : q ≠ .signal)
    (h : .signal ∈ l) (p : Worker) : .signal ∈ l.set i p := by
  obtain ⟨j, hj⟩ := List.mem_iff_getElem?.mp h
  refine List.mem_iff_getElem?.mpr ⟨j, ?_⟩
  rw [List.getElem?_set_ne]
  · exact hj
  · rintro rfl
    exact hq (Option.some.inj (hi.symm.trans hj))

theorem aware_counts (hheld : Held s) (h : Aware threadnum s) {i : ℕ}
    (hi : s.workers[i]? = some .count) :
    Aware threadnum { s.goto i .signal with initCount := s.initCount + 1 } := by
  have houtside := outside_of_inside hheld hi rfl
  have hlt := (List.getElem?_eq_some_iff.mp hi).1
  cases hs : s.main with
  | wait => rw [hs] at houtside; cases houtside
  | unlock => rw [hs] at houtside; cases houtside
  | asleep =>
    simp only [Aware, Launch.goto, hs]
    exact .inr (List.mem_set hlt _)
  | serving =>
    simp only [Aware, Launch.goto, hs] at h ⊢
    push_cast
    omega
  | _ => simp only [Aware, Launch.goto, hs]

theorem aware_move (hheld : Held s) (h : Aware threadnum s) (hm : Move threadnum s b s') :
    Aware threadnum s' := by
  cases hm with
  | own hmove =>
    cases hmove with
    | begins hs => trivial
    | fails hs => trivial
    | waits hs hcount => exact hcount
    | passes hs hcount => exact hcount
  | creates hs => trivial
  | locks hs hfree => trivial
  | sleeps hs =>
    rw [Aware, hs] at h
    exact .inl h
  | serves hs =>
    rw [Aware, hs] at h
    exact h
  | enters hi hfree => exact h.stay rfl rfl (signal_mem_set hi (by simp) · _)
  | counts hi => exact aware_counts hheld h hi
  | rouses hi hs => trivial
  | calls hi hs =>
    cases hmain : s.main with
    | asleep => exact absurd hmain hs
    | wait => simpa only [Aware, Launch.goto, hmain] using h
    | unlock => simpa only [Aware, Launch.goto, hmain] using h
    | serving => simpa only [Aware, Launch.goto, hmain] using h
    | _ => simp only [Aware, Launch.goto, hmain]
  | leaves hi => exact h.stay rfl rfl (signal_mem_set hi (by simp) · _)
  | wakes hs => trivial

end Waiting

section Launching

variable {threadnum : ℤ} {s s' : Launch} {b : Bool}

structure Inv (threadnum : ℤ) (s : Launch) : Prop where
  held : Held s
  counted : Counted threadnum s
  aware : Aware threadnum s

theorem inv_init : Inv threadnum (.init threadnum) := by
  refine ⟨fun party ↦ ?_, ⟨rfl, fun _ ↦ Nat.zero_add _⟩, trivial⟩
  cases party with
  | main => exact iff_of_false (by simp [Launch.init]) (by simp [Launch.inside, Launch.init, Main.inside])
  | worker i => exact iff_of_false (by simp [Launch.init]) (by simp [Launch.inside, Launch.init])

theorem inv_step (h : Inv threadnum s) (turn : Turn) : Inv threadnum (s.step threadnum turn) := by
  rcases step_cases threadnum s turn with hsame | hm
  · rwa [hsame]
  · exact ⟨held_move h.held hm, counted_move h.counted hm, aware_move h.held h.aware hm⟩

theorem inv_run (turns : List Turn) :
    Inv threadnum (run (Launch.step threadnum) (.init threadnum) turns) :=
  run_keeps (I := Inv threadnum) (fun _ turn h ↦ inv_step h turn) inv_init turns

theorem le_minThread (threadnum : ℤ) : threadnum ≤ minThread threadnum := by
  unfold minThread
  split <;> omega

theorem minThread_of_pos (h : 0 < threadnum) : (minThread threadnum : ℤ) = threadnum := by
  unfold minThread
  split <;> omega

end Launching

/-- However the threads interleave at the start of the server, also with wake-ups
that nobody signalled: when it goes on to serve requests, no fewer threads have
registered than were configured, and if any were, these are all there are. -/
theorem serves_after_registration (threadnum : ℤ) (turns : List Turn)
    (hserving : (run (Launch.step threadnum) (.init threadnum) turns).main = .serving) :
    let s := run (Launch.step threadnum) (.init threadnum) turns
    threadnum ≤ s.workers.countP Worker.registered ∧
      (0 < threadnum → s.workers.length = threadnum ∧ ∀ p ∈ s.workers, p.registered = true) := by
  intro s
  have h : Inv threadnum s := inv_run turns
  have haware := h.aware
  rw [Aware, hserving, h.counted.count] at haware
  refine ⟨haware, fun hpos ↦ ?_⟩
  have hmade := h.counted.made (by simp [s, hserving])
  rw [show s.main = .serving from hserving] at hmade
  have hlength : (s.workers.length : ℤ) = threadnum := by
    rw [← minThread_of_pos hpos, ← hmade]
    rfl
  refine ⟨hlength, List.countP_eq_length.mp ?_⟩
  have hle := List.countP_le_length (p := Worker.registered) (l := s.workers)
  omega

def twoThreads : List Turn :=
  List.replicate 3 (.main true) ++ List.replicate 4 (.worker 0) ++ List.replicate 3 (.main true) ++
    List.replicate 4 (.worker 1) ++ List.replicate 3 (.main true)

theorem serves_after_registration_instance :
    let s := run (Launch.step 2) (.init 2) twoThreads
    s.main = .serving ∧ (s.workers.length : ℤ) = 2 ∧ ∀ p ∈ s.workers, p.registered = true := by
  have hserving : (run (Launch.step 2) (.init 2) twoThreads).main = .serving := by decide
  exact ⟨hserving, (serves_after_registration 2 twoThreads hserving).2 (by decide)⟩

section Progress

variable {threadnum : ℤ} {s s' : Launch} {i : ℕ} {p q : Worker}

/-- A turn at which no thread fails to be made and nobody wakes up unsignalled. -/
def Turn.smooth : Turn → Bool
  | .main created => created
  | .worker _ => true
  | .wake => false

def Main.rank : Main → ℕ
  | .creating left => 8 * left + 4
  | .lock | .signalled => 3
  | .test => 2
  | .wait | .unlock => 1
  | .asleep | .serving | .raised => 0

def Worker.rank : Worker → ℕ
  | .lock => 7
  | .count => 6
  | .signal => 5
  | .unlock => 1
  | .loop => 0

def work (s : Launch) : ℕ := s.main.rank + (s.workers.map Worker.rank).sum

theorem work_goto (hi : s.workers[i]? = some q) (hworkers : s'.workers = (s.goto i p).workers)
    (hless : s'.main.rank + p.rank < s.main.rank + q.rank) : work s' < work s := by
  have hset := sum_map_set_add Worker.rank hi p
  have hnew : (s'.workers.map Worker.rank).sum = ((s.workers.set i p).map Worker.rank).sum := by
    rw [hworkers, Launch.goto]
  simp only [work]
  omega

theorem work_move (hm : Move threadnum s false s') : work s' < work s := by
  have hmain {m m' : Main} (hs : s.main = m) (hless : m'.rank < m.rank) {lock : Option Party} :
      work { s with main := m', initLock := lock } < work s := by
    rw [work, work, hs]
    exact Nat.add_lt_add_right hless _
  cases hm with
  | own hmove =>
    cases hmove with
    | begins hs => exact hmain hs (by decide)
    | fails hs => exact hmain hs (by simp [Main.rank])
    | waits hs => exact hmain hs (by decide)
    | passes hs => exact hmain hs (by decide)
  | creates hs =>
    simp only [work, hs, Main.rank, List.map_append, List.map_cons, List.map_nil, List.sum_append,
      List.sum_cons, List.sum_nil, Worker.rank]
    omega
  | locks hs hfree =>
    rcases hs with hs | hs
    · exact hmain hs (by decide)
    · exact hmain hs (by decide)
  | sleeps hs => exact hmain hs (by decide)
  | serves hs => exact hmain hs (by decide)
  | enters hi hfree => exact work_goto hi rfl (Nat.add_lt_add_left (by decide) _)
  | counts hi => exact work_goto hi rfl (Nat.add_lt_add_left (by decide) _)
  | rouses hi hs =>
    refine work_goto hi rfl ?_
    rw [hs]
    exact (by decide : Main.signalled.rank + Worker.unlock.rank < Main.asleep.rank + Worker.signal.rank)
  | calls hi hs => exact work_goto hi rfl (Nat.add_lt_add_left (by decide) _)
  | leaves hi => exact work_goto hi rfl (Nat.add_lt_add_left (by decide) _)

theorem work_step {turn : Turn} (hsmooth : turn.smooth = true) :
    (if s.step threadnum turn = s then 0 else 1) + work (s.step threadnum turn) ≤ work s := by
  have hwake : turn.isWake = false := by
    cases turn with
    | wake => cases hsmooth
    | _ => rfl
  split
  · rename_i hsame
    rw [hsame, Nat.zero_add]
  · rename_i hne
    have hless := work_move (hwake ▸ (step_cases threadnum s turn).resolve_left hne)
    omega

theorem step_not_raised (h : s.main ≠ .raised) {turn : Turn} (hsmooth : turn.smooth = true) :
    (s.step threadnum turn).main ≠ .raised := by
  unfold Launch.step
  rw [if_neg h]
  cases turn with
  | main created =>
    obtain rfl : created = true := hsmooth
    dsimp only [Launch.stepMain]
    split
    · simp
    · simp
    · split <;> simp [h]
    · split <;> simp [h]
    · split <;> simp
    · simp
    · simp
    · exact h
    · exact h
    · exact h
  | worker i =>
    dsimp only [Launch.stepWorker]
    split
    · exact h
    · exact h
    · split <;> exact h
    · exact h
    · dsimp only
      split
      · simp
      · exact h
    · exact h
  | wake => cases hsmooth

theorem main_ne_raised {turns : List Turn} (hsmooth : ∀ turn ∈ turns, turn.smooth = true)
    (h : s.main ≠ .raised) : (run (Launch.step threadnum) s turns).main ≠ .raised := by
  induction turns generalizing s with
  | nil => exact h
  | cons turn turns ih =>
    exact ih (fun t ht ↦ hsmooth t (by simp [ht])) (step_not_raised h (hsmooth turn (by simp)))

theorem goto_workers_ne (hi : s.workers[i]? = some q) (hpq : p ≠ q) :
    (s.goto i p).workers ≠ s.workers := by
  intro h
  have hlt := (List.getElem?_eq_some_iff.mp hi).1
  have hat := congrArg (fun workers ↦ workers[i]?) h
  simp only [Launch.goto, List.getElem?_set_self hlt, hi] at hat
  exact hpq (Option.some.inj hat)

theorem loop_of_stuck (hstuck : s.stepWorker i = s) (hi : s.workers[i]? = some q)
    (hlock : q = .lock → s.initLock = none) : q = .loop := by
  have hworkers := congrArg Launch.workers hstuck
  unfold Launch.stepWorker at hworkers
  cases q with
  | loop => rfl
  | lock =>
    simp only [hi, hlock rfl, if_true] at hworkers
    exact absurd hworkers (goto_workers_ne hi (by decide))
  | count =>
    simp only [hi] at hworkers
    exact absurd hworkers (goto_workers_ne hi (by decide))
  | signal =>
    simp only [hi] at hworkers
    exact absurd hworkers (goto_workers_ne hi (by decide))
  | unlock =>
    simp only [hi] at hworkers
    exact absurd hworkers (goto_workers_ne hi (by decide))

theorem outside_of_stuck (hstuck : s.stepMain threadnum true = s) : s.main.inside = false := by
  have hmain := congrArg Launch.main hstuck
  unfold Launch.stepMain at hmain
  cases hs : s.main with
  | test =>
    simp only [hs] at hmain
    split at hmain <;> cases hmain
  | wait => simp [hs] at hmain
  | unlock => simp [hs] at hmain
  | _ => rfl

theorem free_of_stuck (h : Held s) (hmain : s.stepMain threadnum true = s)
    (hworker : ∀ i, s.stepWorker i = s) : s.initLock = none := by
  by_contra hne
  obtain ⟨party, hparty⟩ := Option.ne_none_iff_exists'.mp hne
  have hin := (h party).mp hparty
  cases party with
  | main =>
    have hout := outside_of_stuck hmain
    rw [Launch.inside, hout] at hin
    cases hin
  | worker i =>
    rw [Launch.inside] at hin
    cases hi : s.workers[i]? with
    | none => rw [hi] at hin; cases hin
    | some p =>
      rw [hi] at hin
      have hloop := loop_of_stuck (hworker i) hi (fun hp ↦ by rw [hp] at hin; cases hin)
      rw [hloop] at hin
      cases hin

theorem launched_of_stuck (h : Inv threadnum s) (hraised : s.main ≠ .raised)
    (hmain : s.stepMain threadnum true = s) (hworker : ∀ i, s.stepWorker i = s) :
    s.main = .serving ∧ ∀ p ∈ s.workers, p = .loop := by
  have hfree := free_of_stuck h.held hmain hworker
  have hloops : ∀ p ∈ s.workers, p = .loop := by
    intro p hp
    obtain ⟨i, hi⟩ := List.mem_iff_getElem?.mp hp
    exact loop_of_stuck (hworker i) hi (fun _ ↦ hfree)
  have hcount : s.initCount = s.workers.length := by
    rw [h.counted.count, List.countP_eq_length]
    intro p hp
    rw [hloops p hp]
    rfl
  refine ⟨?_, hloops⟩
  have hout := outside_of_stuck hmain
  have hplace := congrArg Launch.main hmain
  unfold Launch.stepMain at hplace
  cases hs : s.main with
  | serving => rfl
  | raised => exact absurd hs hraised
  | creating left => cases left <;> simp [hs] at hplace
  | lock => simp [hs, hfree] at hplace
  | signalled => simp [hs, hfree] at hplace
  | asleep =>
    -- all have registered, and nobody has a signal to give
    have hmade := h.counted.made hraised
    have haware := h.aware
    have hle := le_minThread threadnum
    simp only [Aware, hs] at haware
    rw [hs] at hmade
    change s.workers.length = minThread threadnum at hmade
    rcases haware with hless | hsignal
    · omega
    · cases hloops _ hsignal
  | _ => rw [hs] at hout; cases hout

end Progress

/-- If every thread can be made and nobody wakes up unsignalled, the start takes a
bounded number of steps, and it cannot stop short of its end: where nobody can go on,
all threads are in their loops and the server serves. -/
theorem startup_completes (threadnum : ℤ) (turns : List Turn)
    (hsmooth : ∀ turn ∈ turns, turn.smooth = true) :
    let s := run (Launch.step threadnum) (.init threadnum) turns
    tally (Launch.step threadnum) (fun s turn ↦ if s.step threadnum turn = s then 0 else 1)
        (.init threadnum) turns ≤ 8 * minThread threadnum + 4 ∧
      ((∀ turn : Turn, turn.smooth = true → s.step threadnum turn = s) →
        s.main = .serving ∧ s.workers = List.replicate (minThread threadnum) .loop) := by
  intro s
  have hraised : s.main ≠ .raised := main_ne_raised hsmooth (by simp [Launch.init])
  have h : Inv threadnum s := inv_run turns
  constructor
  · have hbound := tally_le (I := fun _ ↦ True) (C := fun _ turn ↦ turn.smooth = true) work
      (fun _ _ ↦ 0) (fun s turn ↦ if s.step threadnum turn = s then 0 else 1) (fun _ _ _ _ ↦ trivial)
      (fun _ _ _ hturn ↦ work_step hturn) trivial (along_of_forall (fun turn ht _ ↦ hsmooth turn ht)
        (Launch.init threadnum))
    have hnone : tally (Launch.step threadnum) (fun _ _ ↦ 0) (.init threadnum) turns = 0 :=
      tally_eq_zero_iff.mpr (along_of_forall (fun _ _ _ ↦ rfl) _)
    rw [hnone] at hbound
    exact (Nat.le_add_right _ _).trans hbound
  · intro hquiet
    have hmain := hquiet (.main true) rfl
    have hworker (i : ℕ) := hquiet (.worker i) rfl
    simp only [Launch.step, if_neg hraised] at hmain hworker
    obtain ⟨hserving, hloops⟩ := launched_of_stuck h hraised hmain hworker
    have hmade := h.counted.made hraised
    rw [hserving] at hmade
    exact ⟨hserving, List.eq_replicate_iff.mpr ⟨hmade, hloops⟩⟩

theorem startup_completes_instance :
    (run (Launch.step 2) (.init 2) twoThreads).main = .serving ∧
      (run (Launch.step 2) (.init 2) twoThreads).workers = List.replicate 2 .loop := by
  refine (startup_completes 2 twoThreads (by decide)).2 fun turn hturn ↦ ?_
  have hend : run (Launch.step 2) (.init 2) twoThreads = ⟨none, 2, .serving, [.loop, .loop]⟩ := by
    decide
  rw [hend]
  cases turn with
  | main created => rfl
  | worker i =>
    rcases i with _ | _ | i <;> rfl
  | wake => cases hturn

end Calcsig.Server.Startup
