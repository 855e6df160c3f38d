import Calcsig.Server.WorkerEffects

namespace Calcsig.Server.StoreIntegrity

open Function Foundation.Text Foundation.FileTree Foundation.FileCalls Foundation.Programs
open Foundation.Inodes Foundation.Runs Utils.ContentSignature Utils.SigPath Utils.RandString
open Store.Publishing Worker Confinement SmallSteps WorkerEffects

variable {Ctx : Type} (env : Setting Ctx)

/-- The workers of a server and the disk they share. An exception that leaves a
worker takes the whole process down. -/
structure Workshop (ι Ctx : Type) where
  disk : Disk UInt8
  phase : ι → Phase Ctx
  down : Bool

inductive Deed (ι : Type)
  | begin (i : ι) (task : HttpTask) (draws : ℕ → ℕ)
  | work (i : ι) (m : Moment)

def isRaised : Phase Ctx → Bool
  | .raised => true
  | _ => false

namespace Workshop

variable {ι : Type}

def start (d : Disk UInt8) : Workshop ι Ctx := ⟨d, fun _ ↦ .idle, false⟩

variable [DecidableEq ι]

def step (s : Workshop ι Ctx) : Deed ι → Workshop ι Ctx
  | .begin i task draws =>
    match s.down, s.phase i with
    | false, .idle => { s with phase := update s.phase i (.begin env task draws) }
    | _, _ => s
  | .work i m =>
    if s.down then s
    else
      let out := work env m (s.phase i) s.disk
      ⟨out.2, update s.phase i out.1, isRaised out.1⟩

def posts (s : Workshop ι Ctx) : Deed ι → List (HttpTask × Item)
  | .begin _ _ _ => []
  | .work i m =>
    match s.down, (s.phase i).job, posted env m (s.phase i) with
    | false, some job, some item => [(job.task, item)]
    | _, _, _ => []

/-- The temporary file of a new task is not that of another task in work. -/
def FreshName (s : Workshop ι Ctx) : Deed ι → Prop
  | .begin _ task draws => ∀ j job, (s.phase j).job = some job → place env.cwd job ≠
      lexical env.cwd (tmpPath env.basePath (randString draws 16 true true) task.fileFormat)
  | .work _ _ => True

structure Orderly (s : Workshop ι Ctx) : Prop where
  flat : TmpFlat env.cwd env.basePath s.disk.view
  sound : Sound env s.disk
  apart : ∀ {i j job job'}, i ≠ j → (s.phase i).job = some job → (s.phase j).job = some job' →
    place env.cwd job ≠ place env.cwd job'
  known : ∀ i, Assert env s.disk (s.phase i)

end Workshop

section Runs

variable {env} {ι : Type} [DecidableEq ι]

theorem job_begin {task : HttpTask} {draws : ℕ → ℕ} {job : Job}
    (h : (.begin env task draws : Phase Ctx).job = some job) :
    job = ⟨task, tmpPath env.basePath (randString draws 16 true true) task.fileFormat⟩ :=
  (Option.some.inj h).symm

theorem assert_begin (d : Disk UInt8) (task : HttpTask) (draws : ℕ → ℕ) :
    Assert env d (.begin env task draws) :=
  assert_afterTmpDir ⟨draws, rfl⟩ (ensureTmpDir_only env) (inside_ensureTmpDir env)

theorem job_afterTmpDir {job job' : Job} {p : Prog SysCall Bool}
    (h : (.afterTmpDir job p : Phase Ctx).job = some job') : job' = job := by
  cases p with
  | call c next => exact (Option.some.inj h).symm
  | ret ready =>
    cases ready with
    | true => exact (Option.some.inj h).symm
    | false => cases h

theorem job_afterMove {job job' : Job} {length : ℕ} {sig : UInt32 × UInt32} {p : Prog SysCall ℤ}
    (h : (.afterMove job length sig p : Phase Ctx).job = some job') : job' = job := by
  cases p with
  | call c next => exact (Option.some.inj h).symm
  | ret r =>
    simp only [Phase.afterMove] at h
    split at h
    · cases h
    · exact (Option.some.inj h).symm

theorem job_work {m : Moment} {ph : Phase Ctx} {d : Disk UInt8} {job : Job}
    (h : (work env m ph d).1.job = some job) : ph.job = some job := by
  cases ph with
  | idle | raised => cases h
  | tmpDir job' c next => rw [job_afterTmpDir h]; rfl
  | moving job' length sig c next => rw [job_afterMove h]; rfl
  | opening job' => exact h
  | starting job' fd =>
    simp only [work] at h
    split at h
    · exact h
    · cases h
  | transferring job' info =>
    simp only [work] at h
    split at h
    · split at h
      · cases h
      · exact h
    · exact h
    · split at h
      · exact h
      · exact h
  | removing job' => cases h
  | sigOpening job' length =>
    simp only [work] at h
    split at h
    · cases h
    · exact h
  | sigReading job' length fd ctx =>
    simp only [work] at h
    split at h
    · cases h
    · split at h
      · rw [job_afterMove h]; rfl
      · exact h
  | posting job' length sig =>
    simp only [work] at h
    split at h
    · cases h
    · cases h

theorem work_of_idle {m : Moment} {ph : Phase Ctx} {d : Disk UInt8} (h : ph.job = none) :
    work env m ph d = (ph, d) := by
  cases ph with
  | idle | raised => rfl
  | _ => cases h

namespace Workshop

theorem Orderly.advance (hbase : nul ∉ env.basePath) {s : Workshop ι Ctx} (h : Orderly env s)
    {i : ι} {ph : Phase Ctx} {d : Disk UInt8} {job : Job} (down : Bool)
    (heffect : Effect env (place env.cwd job) s.disk d) (hassert : Assert env d ph)
    (hjob : ∀ job', ph.job = some job' → job' = job)
    (hothers : ∀ j job', j ≠ i → (s.phase j).job = some job' → place env.cwd job' ≠ place env.cwd job) :
    Orderly env ⟨d, update s.phase i ph, down⟩ := by
  refine ⟨heffect.flat h.flat, heffect.sound h.sound, fun {j k job₁ job₂} hjk hj hk ↦ ?_, ?_⟩
  · dsimp only at hj hk
    by_cases hji : j = i
    · subst hji
      rw [update_self] at hj
      rw [update_of_ne (Ne.symm hjk)] at hk
      rw [hjob job₁ hj]
      exact (hothers k job₂ (Ne.symm hjk) hk).symm
    · rw [update_of_ne hji] at hj
      by_cases hki : k = i
      · subst hki
        rw [update_self] at hk
        rw [hjob job₂ hk]
        exact hothers j job₁ hji hj
      · rw [update_of_ne hki] at hk
        exact h.apart hjk hj hk
  · refine (forall_update_iff s.phase (fun _ ph ↦ Assert env d ph)).mpr ⟨hassert, fun j hji ↦ ?_⟩
    exact (h.known j).stable hbase heffect fun job' hj ↦ hothers j job' hji hj

theorem orderly_step (hbase : nul ∉ env.basePath) {s : Workshop ι Ctx} {e : Deed ι}
    (h : Orderly env s) (he : FreshName env s e) :
    Orderly env (s.step env e) ∧ ∃ own, Effect env own s.disk (s.step env e).disk := by
  cases e with
  | begin i task draws =>
    simp only [step]
    split
    · refine ⟨h.advance hbase _ (.refl _ s.disk) (assert_begin s.disk task draws)
        (fun _ hjob ↦ job_begin hjob) fun j job' _ hj ↦ he j job' hj, [], .refl _ _⟩
    · exact ⟨h, [], .refl _ _⟩
  | work i m =>
    simp only [step]
    split
    · exact ⟨h, [], .refl _ _⟩
    · rcases hjob : (s.phase i).job with _ | job
      · rw [work_of_idle hjob, update_eq_self]
        exact ⟨⟨h.flat, h.sound, h.apart, h.known⟩, [], .refl _ _⟩
      · have hown (job' : Job) (hj : (s.phase i).job = some job') :
            place env.cwd job = place env.cwd job' := by
          rw [Option.some.inj (hjob.symm.trans hj)]
        obtain ⟨heffect, hassert⟩ := work_spec hbase h.flat (h.known i) m hown
        refine ⟨h.advance hbase _ heffect hassert (fun job' hj ↦ ?_) fun j job' hji hj ↦ ?_, _, heffect⟩
        · exact Option.some.inj ((job_work hj).symm.trans hjob)
        · exact h.apart hji hj hjob

/-- What is said of a posted callback: it is made for its task, and there is a
file at the path it gives. -/
structure Kept (env : Setting Ctx) (d : Disk UInt8) (c : HttpTask × Item) : Prop where
  slash : '/' ∉ cString c.1.fileFormat
  item : ∃ length sig, c.2 = itemOf env c.1 length sig ∧
    ∃ b, d.view.content env.cwd (targetPath env.basePath sig c.1.fileFormat) = some b

theorem Kept.stable {d d' : Disk UInt8} {own : Loc} {c : HttpTask × Item} (h : Kept env d c)
    (he : Effect env own d d') : Kept env d' c := by
  obtain ⟨length, sig, hitem, hfile⟩ := h.item
  exact ⟨h.slash, length, sig, hitem, content_stable he (slash_notMem_lower h.slash) hfile⟩

omit [DecidableEq ι] in
theorem kept_of_posts {s : Workshop ι Ctx} {e : Deed ι} (h : Orderly env s) {c : HttpTask × Item}
    (hc : c ∈ s.posts env e) : Kept env s.disk c := by
  cases e with
  | begin i task draws => simp [posts] at hc
  | work i m =>
    have hassert := h.known i
    cases hph : s.phase i with
    | posting job length sig =>
      rw [hph] at hassert
      simp only [posts, hph, posted, Phase.job] at hc
      split at hc
      · rename_i hdown hjob hitem
        obtain rfl := List.mem_singleton.mp hc
        obtain rfl := Option.some.inj hjob
        split at hitem
        · exact ⟨hassert.1, length, sig, (Option.some.inj hitem).symm, hassert.2⟩
        · cases hitem
      · simp at hc
    | _ => simp [posts, hph, posted] at hc

theorem orderly_run (hbase : nul ∉ env.basePath) {s : Workshop ι Ctx} (h : Orderly env s)
    {deeds : List (Deed ι)} (hnames : Along (step env) (FreshName env) s deeds) :
    Orderly env (run (step env) s deeds) ∧
      ∀ c ∈ trace (step env) (posts env) s deeds, Kept env (run (step env) s deeds).disk c := by
  have hstep (s : Workshop ι Ctx) (posted : List (HttpTask × Item)) (e : Deed ι)
      (hi : Orderly env s ∧ ∀ c ∈ posted, Kept env s.disk c) (he : FreshName env s e) :
      Orderly env (step env s e) ∧
        ∀ c ∈ posted ++ posts env s e, Kept env (step env s e).disk c := by
    obtain ⟨hnext, own, heffect⟩ := orderly_step hbase hi.1 he
    refine ⟨hnext, fun c hc ↦ ?_⟩
    rcases List.mem_append.mp hc with hold | hnew
    · exact (hi.2 c hold).stable heffect
    · exact (kept_of_posts hi.1 hnew).stable heffect
  exact run_trace (I := fun s posted ↦ Orderly env s ∧ ∀ c ∈ posted, Kept env s.disk c) (l := [])
    hstep ⟨h, by simp⟩ hnames

omit [DecidableEq ι] in
theorem orderly_start {d : Disk UInt8} (hflat : TmpFlat env.cwd env.basePath d.view)
    (hsound : Sound env d) : Orderly env (start d : Workshop ι Ctx) :=
  ⟨hflat, hsound, fun _ h ↦ (by cases h), fun _ ↦ trivial⟩

end Workshop

variable (env) in
/-- However the workers interleave, whichever calls fail and whatever arrives: as
long as no two tasks in work share a temporary name, a file at a path of the
store has a signature with the residues that the path stands for. -/
theorem store_holds_signatures (hbase : nul ∉ env.basePath) (d : Disk UInt8)
    (hflat : TmpFlat env.cwd env.basePath d.view) (hsound : Sound env d) (deeds : List (Deed ι))
    (hnames : Along (Workshop.step env) (Workshop.FreshName env) (.start d) deeds)
    (sig : UInt32 × UInt32) (fmt : Str) (b : Bytes) (hslash : '/' ∉ cString (lower fmt))
    (hb : (run (Workshop.step env) (.start d) deeds).disk.view.content env.cwd
      (targetPath env.basePath sig fmt) = some b) :
    SameResidues sig.1 sig.2 (signature env.md5 b).1 (signature env.md5 b).2 :=
  residues_of_sound hbase
    (Workshop.orderly_run hbase (Workshop.orderly_start hflat hsound) hnames).1.sound hslash hb

end Runs

section Sample

theorem sampleDisk_view : sampleDisk.view = emptyStore := by
  have hsys (d : Disk UInt8) (c : SysCall) : (d.sys [] c).2.view = (answer [] c d.view).2 := by
    rw [d.view_sys]
  rw [sampleDisk, hsys, hsys, Disk.view_bare]
  rfl

theorem sampleDisk_flat :
    TmpFlat sampleSetting.cwd sampleSetting.basePath sampleDisk.view := by
  rw [sampleDisk_view]
  exact emptyStore_flat

theorem sampleDisk_sound : Sound sampleSetting sampleDisk := fun _ _ _ _ hn ↦
  absurd (sampleDisk.linked.known hn) (Nat.not_lt_zero _)

def sampleDeeds : List (Deed Unit) :=
  .begin () sampleTask (fun _ ↦ 0) :: (List.replicate 3 granted ++
    [{ granted with arrival := some (.body [0x61] (some 1)) },
      { granted with performed := true, responseCode := 200 }] ++ List.replicate 16 granted).map
      (.work ())

theorem sampleDeeds_fresh : Along (Workshop.step sampleSetting) (Workshop.FreshName sampleSetting)
    (.start sampleDisk) sampleDeeds := by
  refine ⟨fun _ _ h ↦ (by cases h), along_of_forall (fun e he s ↦ ?_) _⟩
  obtain ⟨m, -, rfl⟩ := List.mem_map.mp he
  trivial

theorem store_holds_signatures_instance :
    let final := run (Workshop.step sampleSetting) (.start sampleDisk) sampleDeeds
    let sig := signature sampleMd5 [0x61]
    final.disk.view.content [] (targetPath "/s".toList sig "mp3".toList) = some [0x61] ∧
      SameResidues sig.1 sig.2 (signature sampleMd5 [0x61]).1 (signature sampleMd5 [0x61]).2 := by
  have hcontent : (run (Workshop.step sampleSetting) (.start sampleDisk) sampleDeeds).disk.view.content
      [] (targetPath "/s".toList (signature sampleMd5 [0x61]) "mp3".toList) = some [0x61] := by
    decide +kernel
  exact ⟨hcontent, store_holds_signatures sampleSetting (by decide) sampleDisk sampleDisk_flat
    sampleDisk_sound sampleDeeds sampleDeeds_fresh _ "mp3".toList _ (by decide) hcontent⟩

end Sample

end Calcsig.Server.StoreIntegrity
