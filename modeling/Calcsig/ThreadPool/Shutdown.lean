import Calcsig.ThreadPool.Discipline

namespace Calcsig.ThreadPool.Shutdown

open Foundation.Runs Model Discipline

variable {ι τ : Type}

/-- The mutex keeps the thread in `get_task`. -/
@[grind] def blocked : Place τ → Bool
  | .getLock | .signalled | .woken => true
  | _ => false

theorem waits_of_blocked {p : Place τ} (h : blocked p = true) : p.locked = false ∧ p ≠ .asleep := by
  cases p with
  | getLock | signalled | woken => exact ⟨rfl, nofun⟩
  | _ => cases h

/-- Places from which, once the pool is stopped, the holder of the mutex never
gives it back. -/
@[grind] def keeps (queue : List τ) : Place τ → Bool
  | .getStopped | .getCheck => true
  | .getEmpty => !queue.isEmpty
  | .outside | .getLock | .addStopped _ => true
  | _ => false

@[grind] def Doomed (s : Pool ι τ) : Prop :=
  s.isStopped = true ∧ ∃ j, s.mutex = some j ∧ keeps s.taskQueue (s.place j) = true

section Moves

variable [DecidableEq ι] {s s' : Pool ι τ} {b : Bool}

theorem doomed_move (h : Inv s) (hd : Doomed s) (hm : Move s b s') : Doomed s' := by
  obtain ⟨hstop, j, hj, hk⟩ := hd
  have hholds := h.holds
  cases hm with
  | free i hi hf => cases hf <;> grind
  | lock i hi hl hfree => grind
  | inside i hi hin => cases hin <;> grind
  | unlock i hi hu => cases hu <;> grind
  | stop => exact ⟨rfl, j, hj, hk⟩
  | _ => grind

theorem blocked_move (hmutex : s.mutex ≠ none) {w : ι} (hw : blocked (s.place w) = true)
    (hm : Move s b s') : blocked (s'.place w) = true := by
  cases hm with
  | free i hi hf => cases hf <;> grind
  | inside i hi hin => cases hin <;> grind
  | unlock i hi hu => cases hu <;> grind
  | stop => exact hw
  | _ => grind

end Moves

variable [DecidableEq ι] [Fintype ι] {s : Pool ι τ} {i j w : ι}

theorem doomed_step (a : Act ι τ) (h : Inv s) (hd : Doomed s) : Doomed (s.step a) := by
  rcases step_cases s a with he | hm
  · rwa [he]
  · exact doomed_move h hd hm

theorem blocked_run (h : Inv s) (hd : Doomed s) (hw : blocked (s.place w) = true)
    (more : List (Act ι τ)) : blocked ((run Pool.step s more).place w) = true := by
  have hkept : Inv (run Pool.step s more) ∧ Doomed (run Pool.step s more) ∧
      blocked ((run Pool.step s more).place w) = true := by
    apply run_keeps (I := fun s ↦ Inv s ∧ Doomed s ∧ blocked (s.place w) = true) _ ⟨h, hd, hw⟩
    rintro s a ⟨h, hd, hw⟩
    refine ⟨inv_step a h, doomed_step a h hd, ?_⟩
    obtain ⟨-, j, hj, -⟩ := hd
    rcases step_cases s a with he | hm
    · rwa [he]
    · exact blocked_move (by simp [hj]) hw hm
  exact hkept.2.2

/-- The other threads can bring the mutex back: the holder runs on until it
lets go, and no thread but the holder and sleepers moves. -/
def Frees (j : ι) (s : Pool ι τ) : Prop :=
  ∃ more : List (Act ι τ), (∀ a ∈ more, a.isWake = false) ∧
    (run Pool.step s more).mutex = none ∧ (run Pool.step s more).isStopped = s.isStopped ∧
    ∀ k, k ≠ j → s.place k ≠ .asleep → (run Pool.step s more).place k = s.place k

theorem Frees.now (h : s.mutex = none) : Frees j s :=
  ⟨[], fun _ ha ↦ (List.not_mem_nil ha).elim, h, rfl, fun _ _ _ ↦ rfl⟩

theorem Frees.of_step {a : Act ι τ} (h : Frees j (s.step a)) (ha : a.isWake = false)
    (hstop : (s.step a).isStopped = s.isStopped)
    (hplace : ∀ k, k ≠ j → s.place k ≠ .asleep → (s.step a).place k = s.place k) : Frees j s := by
  obtain ⟨more, hmore, hmutex, hstop', hplace'⟩ := h
  refine ⟨a :: more, List.forall_mem_cons.mpr ⟨ha, hmore⟩, hmutex, hstop'.trans hstop, ?_⟩
  intro k hk hawake
  have hsame := hplace k hk hawake
  exact (hplace' k hk (hsame ▸ hawake)).trans hsame

theorem Frees.of_next (h : Frees j (s.next j)) : Frees j s :=
  Frees.of_step (a := .next j) h rfl (next_isStopped s j) (fun _ hk _ ↦ next_place_of_ne s hk)

theorem frees_of_unlock {q p : Place τ} (hq : s.place j = q) (hu : UnlockMove q p) : Frees j s := by
  apply Frees.of_next
  apply Frees.now
  cases hu <;> simp [Pool.next, hq]

theorem frees_of_addSignal (hj : s.place j = .addSignal) : Frees j s := by
  by_cases hno : ∀ w, (s.place w).isAsleep = false
  · apply Frees.of_next
    have hn : s.next j = s.goto j .addUnlock := by simp only [Pool.next, hj, if_pos hno]
    rw [hn]
    exact frees_of_unlock (by simp) .addUnlock
  · obtain ⟨w, hw⟩ : ∃ w, s.place w = .asleep := by
      simpa [Place.isAsleep_eq_true_iff] using hno
    have hn : s.step (.signal j w) = (s.goto w .signalled).goto j .addUnlock := by
      simp only [Pool.step, Pool.signal, hj, hw]
    apply Frees.of_step (a := .signal j w) _ rfl
    · rw [hn]
      rfl
    · intro k hk hawake
      have hkw : k ≠ w := fun he ↦ hawake (he ▸ hw)
      simp [hn, hk, hkw]
    · rw [hn]
      exact frees_of_unlock (by simp) .addUnlock

theorem frees_of_getEmpty (hj : s.place j = .getEmpty) (hq : s.taskQueue = []) : Frees j s := by
  apply Frees.of_next
  have hn : s.next j = s.goto j .getWait := by simp [Pool.next, hj, hq]
  rw [hn]
  exact frees_of_unlock (by simp) .getWait

theorem frees_of_getFront (hj : s.place j = .getFront) (hq : s.taskQueue ≠ []) : Frees j s := by
  apply Frees.of_next
  obtain ⟨task, rest, hq⟩ := List.exists_cons_of_ne_nil hq
  have hn : s.next j = { s.goto j (.getUnlock task) with taskQueue := rest } := by
    simp only [Pool.next, hj, hq]
  rw [hn]
  exact frees_of_unlock (by simp) (.getUnlock task)

theorem frees_of_addPush {task : τ} (hj : s.place j = .addPush task) : Frees j s := by
  apply Frees.of_next
  apply frees_of_addSignal
  simp [Pool.next, hj]

theorem frees_of_not_doomed (h : Inv s) (hstop : s.isStopped = true) (hd : ¬ Doomed s)
    (hj : s.mutex = some j) : Frees j s := by
  have hkeeps : keeps s.taskQueue (s.place j) = false := by
    rw [Bool.eq_false_iff]
    exact fun hk ↦ hd ⟨hstop, j, hj, hk⟩
  have hknows := h.knows j
  have hholder := h.holder j hj
  cases hp : s.place j with
  | getEmpty =>
    refine frees_of_getEmpty hp ?_
    simpa [hp, keeps] using hkeeps
  | getFront =>
    refine frees_of_getFront hp ?_
    simpa [hp, Knows] using hknows
  | getWait => exact frees_of_unlock hp .getWait
  | getUnlock task => exact frees_of_unlock hp (.getUnlock task)
  | addUnlock => exact frees_of_unlock hp .addUnlock
  | addPush task => exact frees_of_addPush hp
  | addSignal => exact frees_of_addSignal hp
  | _ => simp [hp, keeps, Place.locked, idle] at hkeeps hholder

theorem keeps_of_idle {queue : List τ} {p : Place τ} (h : idle p = true) : keeps queue p = true := by
  cases p with
  | outside | getLock | addStopped => rfl
  | _ => cases h

/-- The mutex of a stopped pool can come back with a thread that waits for it
still in its place. -/
theorem exists_free (h : Inv s) (hstop : s.isStopped = true) (hd : ¬ Doomed s)
    (hi : (s.place i).locked = false) (hawake : s.place i ≠ .asleep) :
    ∃ more : List (Act ι τ), (∀ a ∈ more, a.isWake = false) ∧
      (run Pool.step s more).mutex = none ∧ (run Pool.step s more).isStopped = true ∧
      (run Pool.step s more).place i = s.place i := by
  cases hj : s.mutex with
  | none => exact ⟨[], fun _ ha ↦ (List.not_mem_nil ha).elim, hj, hstop, rfl⟩
  | some j =>
    have hne : i ≠ j := by
      rintro rfl
      rcases h.holder i hj with hlocked | ⟨-, hidle⟩
      · simp [hi] at hlocked
      · exact hd ⟨hstop, i, hj, keeps_of_idle hidle⟩
    obtain ⟨more, hmore, hmutex, hstop', hplace⟩ := frees_of_not_doomed h hstop hd hj
    exact ⟨more, hmore, hmutex, hstop'.trans hstop, hplace i hne hawake⟩

theorem leaves_of_free (hfree : s.mutex = none) (hstop : s.isStopped = true)
    (hw : blocked (s.place w) = true) :
    (run Pool.step s [.next w, .next w, .next w]).place w = .outside := by
  have hlock : s.next w = { s.goto w .getStopped with mutex := some w } := by
    cases hp : s.place w with
    | getLock | signalled | woken => simp only [Pool.next, hp, Pool.lock, hfree, if_true]
    | _ => simp [hp, blocked] at hw
  simp only [run, List.foldl_cons, List.foldl_nil, Pool.step]
  rw [hlock]
  simp [Pool.next, hstop]

/-- In a stopped pool a thread that waits for the mutex gets out exactly when
the mutex can come back. -/
theorem leaves_iff (h : Inv s) (hstop : s.isStopped = true) (hw : blocked (s.place w) = true) :
    (∃ more, (run Pool.step s more).place w = .outside) ↔ ¬ Doomed s := by
  constructor
  · rintro ⟨more, hout⟩ hd
    have hb := blocked_run h hd hw more
    rw [hout] at hb
    cases hb
  · intro hd
    have hwaits := waits_of_blocked hw
    obtain ⟨more, -, hmutex, hstop', hsame⟩ := exists_free h hstop hd hwaits.1 hwaits.2
    refine ⟨more ++ [.next w, .next w, .next w], ?_⟩
    rw [run_append]
    exact leaves_of_free hmutex hstop' (hsame ▸ hw)

/-- The mutex is held inside calls only exactly as long as no `get_task` finds
the pool stopped; after `stop` a waiting worker can leave unless the mutex is
lost. -/
theorem mutex_released_iff (acts : List (Act ι τ)) :
    (Throughout Pool.step HeldInside Pool.init acts ↔
      Along Pool.step (fun s a ↦ leaks s a = false) Pool.init acts) ∧
    ((run Pool.step Pool.init acts).isStopped = true →
      ∀ w, blocked ((run Pool.step Pool.init acts).place w) = true →
        ((∃ more, (run Pool.step (run Pool.step Pool.init acts) more).place w = .outside) ↔
          ¬ Doomed (run Pool.step Pool.init acts))) :=
  ⟨heldInside_iff acts, fun hstop _ hw ↦ leaves_iff (inv_run acts) hstop hw⟩

/-- One thread stops the pool while another waits for the mutex to enter. -/
def stopEarly : List (Act Bool ℕ) := [.stop false, .getTask true]

theorem mutex_released_iff_instance :
    (∃ more, (run Pool.step (run Pool.step Pool.init stopEarly) more).place true = .outside) ↔
      ¬ Doomed (run Pool.step Pool.init stopEarly) :=
  (mutex_released_iff stopEarly).2 rfl true rfl

def stopLeak : List (Act Bool ℕ) :=
  stopEarly ++ [.next true, .next true, .next true, .getTask false]

theorem stop_leaks_mutex :
    (run Pool.step Pool.init stopLeak).mutex = some true ∧
    (run Pool.step Pool.init stopLeak).place true = .outside ∧
    (run Pool.step Pool.init stopLeak).place false = .getLock ∧
    ∀ more, (run Pool.step (run Pool.step Pool.init stopLeak) more).place false ≠ .outside := by
  refine ⟨rfl, rfl, rfl, fun more hout ↦ ?_⟩
  have hb := blocked_run (w := false) (inv_run stopLeak) ⟨rfl, true, rfl, rfl⟩ rfl more
  rw [hout] at hb
  cases hb

/-- The thread is on its way to `pthread_cond_signal` and holds the mutex. -/
@[grind] def signalling : Place τ → Bool
  | .addPush _ | .addSignal => true
  | _ => false

/-- The thread has passed the check of `add_task` and waits for the mutex. -/
@[grind] def admitted : Place τ → Bool
  | .addLock _ => true
  | _ => false

theorem waits_of_admitted {p : Place τ} (h : admitted p = true) : p.locked = false ∧ p ≠ .asleep := by
  cases p with
  | addLock task => exact ⟨rfl, nofun⟩
  | _ => cases h

@[grind] def Pending (s : Pool ι τ) : Prop :=
  (∃ i, signalling (s.place i) = true) ∨ ¬ Doomed s ∧ ∃ i, admitted (s.place i) = true

/-- Asleep in a stopped pool, and nothing the other threads do will signal it. -/
def Stranded (s : Pool ι τ) (w : ι) : Prop :=
  s.isStopped = true ∧ s.place w = .asleep ∧
    ∀ more : List (Act ι τ), (∀ a ∈ more, a.isWake = false) →
      (run Pool.step s more).place w = .asleep

omit [Fintype ι] in
theorem signalling_move {s' : Pool ι τ} {b : Bool} (hm : Move s b s')
    (h : signalling (s'.place i) = true) :
    signalling (s.place i) = true ∨ s.mutex = none ∧ admitted (s.place i) = true := by
  cases hm with
  | free k hk hf => cases hf <;> grind
  | lock k hk hl hfree => cases hl <;> grind
  | inside k hk hin => cases hin <;> grind
  | unlock k hk hu => cases hu <;> grind
  | stop => exact .inl h
  | _ => grind

omit [Fintype ι] in
theorem admitted_move {s' : Pool ι τ} {b : Bool} (hstop : s.isStopped = true) (hm : Move s b s')
    (h : admitted (s'.place i) = true) : admitted (s.place i) = true := by
  cases hm with
  | free k hk hf => cases hf <;> grind
  | lock k hk hl hfree => cases hl <;> grind
  | inside k hk hin => cases hin <;> grind
  | unlock k hk hu => cases hu <;> grind
  | stop => exact h
  | _ => grind

omit [Fintype ι] in
theorem isStopped_move {s' : Pool ι τ} {b : Bool} (hstop : s.isStopped = true) (hm : Move s b s') :
    s'.isStopped = true := by
  cases hm with
  | stop => rfl
  | _ => exact hstop

/-- Nothing new can be on its way once the pool is stopped. -/
theorem quiet_step (a : Act ι τ) (h : Inv s) (hstop : s.isStopped = true) (hq : ¬ Pending s) :
    (s.step a).isStopped = true ∧ ¬ Pending (s.step a) := by
  rcases step_cases s a with he | hm
  · rw [he]
    exact ⟨hstop, hq⟩
  · refine ⟨isStopped_move hstop hm, ?_⟩
    rintro (⟨i, hi⟩ | ⟨hd, i, hi⟩)
    · rcases signalling_move hm hi with hi | ⟨hfree, hi⟩
      · exact hq (.inl ⟨i, hi⟩)
      · refine hq (.inr ⟨?_, i, hi⟩)
        rintro ⟨-, j, hj, -⟩
        simp [hfree] at hj
    · exact hq (.inr ⟨fun hd' ↦ hd (doomed_move h hd' hm), i, admitted_move hstop hm hi⟩)

theorem asleep_step {a : Act ι τ} (hw : s.place w = .asleep) (ha : a.isWake = false)
    (hq : ¬ Pending s) : (s.step a).place w = .asleep := by
  have henter (i : ι) (p : Place τ) : (s.enter i p).place w = .asleep := by
    unfold Pool.enter
    split <;> grind
  cases a with
  | getTask i => exact henter i .getLock
  | addTask i task => exact henter i (.addStopped task)
  | stop i =>
    simp only [Pool.step, Pool.stop]
    split <;> exact hw
  | next i =>
    by_cases hne : w = i
    · subst hne
      simp only [Pool.step, Pool.next, hw]
    · rwa [Pool.step, next_place_of_ne s hne]
  | signal i w' =>
    simp only [Pool.step, Pool.signal]
    split <;> rename_i hi hw'
    · exact (hq (.inl ⟨i, by rw [hi]; rfl⟩)).elim
    · exact hw
  | wake w' => cases ha

theorem stranded_of_quiet (h : Inv s) (hstop : s.isStopped = true) (hw : s.place w = .asleep)
    (hq : ¬ Pending s) : Stranded s w := by
  refine ⟨hstop, hw, fun more hmore ↦ ?_⟩
  have hkept : Inv (run Pool.step s more) ∧ (run Pool.step s more).isStopped = true ∧
      ¬ Pending (run Pool.step s more) ∧ (run Pool.step s more).place w = .asleep := by
    apply run_invariant (C := fun _ a ↦ a.isWake = false)
      (I := fun s ↦ Inv s ∧ s.isStopped = true ∧ ¬ Pending s ∧ s.place w = .asleep) _
      ⟨h, hstop, hq, hw⟩ (along_of_forall (fun a ha _ ↦ hmore a ha) s)
    rintro s a ⟨h, hstop, hq, hw⟩ ha
    obtain ⟨hstop', hq'⟩ := quiet_step a h hstop hq
    exact ⟨inv_step a h, hstop', hq', asleep_step hw ha hq⟩
  exact hkept.2.2.2

/-- Some continuation without spurious wake-ups gets the thread out of its sleep. -/
def Rousable (s : Pool ι τ) (w : ι) : Prop :=
  ∃ more : List (Act ι τ), (∀ a ∈ more, a.isWake = false) ∧
    (run Pool.step s more).place w ≠ .asleep

theorem Rousable.of_run (more : List (Act ι τ)) (hmore : ∀ a ∈ more, a.isWake = false)
    (h : Rousable (run Pool.step s more) w) : Rousable s w := by
  obtain ⟨rest, hrest, hw⟩ := h
  refine ⟨more ++ rest, ?_, ?_⟩
  · simpa [or_imp, forall_and] using ⟨hmore, hrest⟩
  · rwa [run_append]

theorem Rousable.of_next (h : Rousable (s.next i) w) : Rousable s w :=
  Rousable.of_run [.next i] (by simp [Act.isWake]) h

theorem rousable_of_addSignal (hi : s.place i = .addSignal) (hw : s.place w = .asleep) :
    Rousable s w := by
  refine ⟨[.signal i w], by simp [Act.isWake], ?_⟩
  have hne : w ≠ i := ne_of_apply_ne s.place (by simp [hi, hw])
  simp [run, Pool.step, Pool.signal, hi, hw, hne]

theorem rousable_of_signalling (hi : signalling (s.place i) = true) (hw : s.place w = .asleep) :
    Rousable s w := by
  cases hp : s.place i with
  | addSignal => exact rousable_of_addSignal hp hw
  | addPush task =>
    apply Rousable.of_next (i := i)
    have hne : w ≠ i := ne_of_apply_ne s.place (by simp [hp, hw])
    apply rousable_of_addSignal (i := i)
    · simp [Pool.next, hp]
    · rwa [next_place_of_ne s hne]
  | _ => simp [hp, signalling] at hi

theorem rousable_of_admitted (hfree : s.mutex = none) (hi : admitted (s.place i) = true)
    (hw : s.place w = .asleep) : Rousable s w := by
  cases hp : s.place i with
  | addLock task =>
    apply Rousable.of_next (i := i)
    have hne : w ≠ i := ne_of_apply_ne s.place (by simp [hp, hw])
    apply rousable_of_signalling (i := i)
    · simp [Pool.next, hp, Pool.lock, hfree, signalling]
    · rwa [next_place_of_ne s hne]
  | _ => simp [hp, admitted] at hi

theorem rousable_of_pending (h : Inv s) (hstop : s.isStopped = true) (hw : s.place w = .asleep)
    (hp : Pending s) : Rousable s w := by
  rcases hp with ⟨i, hi⟩ | ⟨hd, i, hi⟩
  · exact rousable_of_signalling hi hw
  · have hwaits := waits_of_admitted hi
    obtain ⟨more, hmore, hmutex, -, hsame⟩ := exists_free h hstop hd hwaits.1 hwaits.2
    by_cases hw' : (run Pool.step s more).place w = .asleep
    · exact .of_run more hmore (rousable_of_admitted hmutex (hsame ▸ hi) hw')
    · exact ⟨more, hmore, hw'⟩

/-- A stopped pool strands no worker exactly when every sleeper still has an
`add_task` coming that was admitted before the stop and can get the mutex. -/
theorem none_stranded_iff (acts : List (Act ι τ)) :
    (∀ w, ¬ Stranded (run Pool.step Pool.init acts) w) ↔
      ((run Pool.step Pool.init acts).isStopped = true →
        ∀ w, (run Pool.step Pool.init acts).place w = .asleep →
          Pending (run Pool.step Pool.init acts)) := by
  have h := inv_run acts
  constructor
  · intro hnone hstop w hw
    by_contra hq
    exact hnone w (stranded_of_quiet h hstop hw hq)
  · rintro hpend w ⟨hstop, hw, hforever⟩
    obtain ⟨more, hmore, hout⟩ := rousable_of_pending h hstop hw (hpend hstop w hw)
    exact hout (hforever more hmore)

/-- A worker goes to sleep on the empty queue and then the pool is stopped. -/
def sleepThenStop : List (Act Bool ℕ) :=
  [.getTask true, .next true, .next true, .next true, .next true, .stop false]

theorem sleeper_stranded : Stranded (run Pool.step Pool.init sleepThenStop) true := by
  refine stranded_of_quiet (inv_run sleepThenStop) rfl rfl ?_
  rintro (⟨i, hi⟩ | ⟨-, i, hi⟩) <;> cases i <;> cases hi

end Calcsig.ThreadPool.Shutdown
