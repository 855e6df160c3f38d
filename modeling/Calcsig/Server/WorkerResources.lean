import Calcsig.Server.Worker

namespace Calcsig.Server.WorkerResources

open Foundation.Text Foundation.FileTree Foundation.FileCalls Foundation.Documents
open Utils.ContentSignature Utils.MoveFile Store.Publishing Transfer Worker

variable {Ctx : Type} (env : Setting Ctx) (task : HttpTask) (o : Outside) (t : Volume Bytes)

/-- The task was deleted once, and the descriptor of the temporary file closed
once if it was opened. -/
def ReleasedOnce (events : List Event) : Prop :=
  events.count (.release .task) = 1 ∧
    (Event.acquire .descriptor ∈ events → events.count (.release .descriptor) = 1)

instance (events : List Event) : Decidable (ReleasedOnce events) :=
  inferInstanceAs (Decidable (_ ∧ _))

/-- The exits that clean up: the one without a directory for temporary files,
and those behind a successful download, except that the callback needs its
handle and a response that can be looked into. -/
def CleanExit : Prop :=
  (tmpDir env o t).1 = false ∨
    o.curl = true ∧ (download env task o t).1 = true ∧ downloadOK o = true ∧
      ∀ sig, (fileSig env task o t).1 = some sig → (moveTo env task o t sig).1 = 0 →
        o.callbackCurl = true ∧ answered env o = true

structure Closed (events : List Event) : Prop where
  task : events.count (.release .task) = 0
  descriptor : events.count (.release .descriptor) = events.count (.acquire .descriptor)
  once : events.count (.acquire .descriptor) ≤ 1

theorem count_sigEvents (events : List FdEvent) {r : Resource} (hr : r ≠ .sigDescriptor) :
    (events.map FdEvent.toEvent).count (.release r) = 0 ∧
      (events.map FdEvent.toEvent).count (.acquire r) = 0 := by
  constructor <;>
  · rw [List.count_eq_zero]
    intro h
    obtain ⟨e, -, he⟩ := List.mem_map.mp h
    cases e <;> simp [FdEvent.toEvent, Ne.symm hr] at he

theorem opening_task : (opening env task o t).count (.release .task) = 0 := by
  unfold opening Resource.acquireIf
  split <;> decide

theorem closing_closed : Closed (closing env task o t) := by
  unfold closing opening Resource.acquireIf Resource.releaseIf
  split <;> constructor <;> decide

theorem signing_closed : Closed (signing env task o t) := by
  have htask := count_sigEvents (fileSig env task o t).2 (r := .task) (by decide)
  have hfd := count_sigEvents (fileSig env task o t).2 (r := .descriptor) (by decide)
  have hclosed := closing_closed env task o t
  constructor
  · rw [signing, List.count_append, htask.1, hclosed.task]
  · rw [signing, List.count_append, List.count_append, hfd.1, hfd.2, hclosed.descriptor]
  · rw [signing, List.count_append, hfd.2]
    exact hclosed.once

theorem releasedOnce_iff {events last : List Event} (h : Closed events)
    (hacquire : Event.acquire .descriptor ∉ last) (hrelease : Event.release .descriptor ∉ last) :
    ReleasedOnce (events ++ last) ↔ last.count (.release .task) = 1 := by
  have hdesc : Event.acquire .descriptor ∈ events ++ last →
      (events ++ last).count (.release .descriptor) = 1 := by
    intro hm
    have hm' := (List.mem_append.mp hm).resolve_right hacquire
    have hpos := List.count_pos_iff.mpr hm'
    rw [List.count_append, List.count_eq_zero.mpr hrelease, h.descriptor]
    have honce := h.once
    omega
  rw [ReleasedOnce, List.count_append, h.task, Nat.zero_add]
  exact and_iff_left hdesc

theorem opening_not_releasedOnce {last : List Event} (h : Event.release .task ∉ last) :
    ¬ ReleasedOnce (opening env task o t ++ last) := by
  intro hr
  have hcount := hr.1
  rw [List.count_append, opening_task, List.count_eq_zero.mpr h] at hcount
  cases hcount

theorem callback_released_iff (sig : UInt32 × UInt32) :
    ReleasedOnce (callback env task o t sig).events ↔
      o.callbackCurl = true ∧ answered env o = true := by
  have hclosed := signing_closed env task o t
  unfold callback
  cases hback : o.callbackCurl with
  | false =>
    simp only [if_true, List.append_assoc]
    rw [releasedOnce_iff hclosed (by decide) (by decide)]
    exact iff_of_false (by decide) (by simp)
  | true =>
    cases hanswer : answered env o with
    | false =>
      simp only [Bool.true_eq_false, if_true, if_false, List.append_assoc]
      rw [releasedOnce_iff hclosed (by decide) (by decide)]
      decide
    | true =>
      simp only [Bool.true_eq_false, if_false, List.append_assoc]
      rw [releasedOnce_iff hclosed (by decide) (by decide)]
      decide

/-- An iteration deletes its task once and closes the descriptor of its
temporary file once exactly when it takes a clean exit. -/
theorem resources_released_iff :
    ReleasedOnce (threadWorker env task o t).events ↔ CleanExit env task o t := by
  have hclosed := closing_closed env task o t
  have hsigned := signing_closed env task o t
  unfold threadWorker CleanExit
  cases hdir : (tmpDir env o t).1 with
  | false =>
    simp only [if_true, true_or, iff_true]
    decide
  | true =>
  cases hcurl : o.curl with
  | false =>
    simp only [Bool.true_eq_false, Bool.false_eq_true, if_true, if_false, false_or, false_and, iff_false]
    exact opening_not_releasedOnce env task o t (by decide)
  | true =>
  cases hdown : (download env task o t).1 with
  | false =>
    simp only [Bool.true_eq_false, Bool.false_eq_true, if_true, if_false, false_or, false_and, and_false,
      iff_false]
    exact opening_not_releasedOnce env task o t (by decide)
  | true =>
  cases hok : downloadOK o with
  | false =>
    simp only [Bool.true_eq_false, Bool.false_eq_true, if_true, if_false, false_or, false_and, and_false,
      iff_false]
    rw [releasedOnce_iff hclosed (by decide) (by decide)]
    decide
  | true =>
  simp only [Bool.true_eq_false, if_false, false_or, true_and]
  cases hsig : (fileSig env task o t).1 with
  | none =>
    rw [releasedOnce_iff hsigned (by decide) (by decide)]
    exact iff_of_true (by decide) (fun sig h ↦ by cases h)
  | some sig =>
    by_cases hmove : (moveTo env task o t sig).1 = 0
    · simp only [hmove, ne_eq, not_true, if_false, callback_released_iff]
      exact ⟨fun h sig' hs _ ↦ h, fun h ↦ h sig rfl hmove⟩
    · simp only [ne_eq, hmove, not_false_eq_true, if_true]
      rw [releasedOnce_iff hsigned (by decide) (by decide)]
      refine iff_of_true (by decide) (fun sig' hs h0 ↦ ?_)
      obtain rfl := Option.some.inj hs
      exact absurd h0 hmove

theorem failed_download_leaks :
    let o : Outside := { calm [] with responseCode := 404 }
    (threadWorker sampleSetting sampleTask o emptyStore).raised = false ∧
      ¬ ReleasedOnce (threadWorker sampleSetting sampleTask o emptyStore).events ∧
      (threadWorker sampleSetting sampleTask o emptyStore).events.count (.release .task) = 0 := by
  decide +kernel

structure Created (l : Loc) : Prop where
  dir : (tmpDir env o t).1 = true
  file : (tmpFile env task o t).1 = some l

/-- The ways out that take the temporary file along: its removal after a
failed download, and a move to another place. -/
def Disposed (l : Loc) : Prop :=
  o.curl = true ∧ (download env task o t).1 = true ∧
    (downloadOK o = false ∧ (removeTmp env task o t).1 = true ∨
      downloadOK o = true ∧ ∃ sig, (fileSig env task o t).1 = some sig ∧
        (moveTo env task o t sig).1 = 0 ∧
        lexical env.cwd (targetPath env.basePath sig task.fileFormat) ≠ l)

section TmpFile

variable {env task o t} {l : Loc}

theorem removeTmp_node (h : (tmpFile env task o t).1 = some l) :
    (removeTmp env task o t).2.node l = none ↔ (removeTmp env task o t).1 = true := by
  obtain ⟨he, p, b, hn, -⟩ := download_file h
  unfold removeTmp
  split
  · simp [hn]
  · rcases remove_cases env.cwd (tmpRealPath env task o) (download env task o t).2.tree with
      hr | ⟨l', hl', hr, hgone⟩
    · simp [hr, hn]
    · obtain rfl : l' = l := Option.some.inj (hl'.symm.trans he)
      exact iff_of_true hgone hr

theorem moveTo_node (h : (tmpFile env task o t).1 = some l) (sig : UInt32 × UInt32) :
    (moveTo env task o t sig).2.node l = none ↔
      (moveTo env task o t sig).1 = 0 ∧
        lexical env.cwd (targetPath env.basePath sig task.fileFormat) ≠ l := by
  obtain ⟨he, p, b, hn, -⟩ := download_file h
  rcases mvfile_spec env.cwd (tmpRealPath env task o) (targetPath env.basePath sig task.fileFormat)
      o.moveFaults (download env task o t).2.tree with
    ⟨hr, hgrow⟩ | ⟨hr, t₁, s, d, hgrow, hs, hd, hmoved⟩
  · refine iff_of_false ?_ ?_
    · rw [moveTo, hgrow.keeps hn]
      simp
    · intro h0
      rw [moveTo, hr] at h0
      cases h0.1
  · obtain rfl : s = l := Option.some.inj (hs.symm.trans he)
    rw [← Volume.entry_lexical hd]
    constructor
    · intro hnone
      refine ⟨hr, ?_⟩
      rintro rfl
      have harrive := hmoved.arrives
      rw [hgrow.keeps hn] at harrive
      rw [moveTo, harrive] at hnone
      cases hnone
    · intro hne
      exact hmoved.leaves (Ne.symm hne.2)

end TmpFile

/-- A temporary file that was made is gone at the end of its iteration exactly
when one of these ways was taken. -/
theorem tmp_gone_iff (l : Loc) (h : Created env task o t l) :
    (threadWorker env task o t).tree.node l = none ↔ Disposed env task o t l := by
  obtain ⟨he, p, b, hn, -⟩ := download_file h.file
  obtain ⟨-, q, hempty⟩ := tmpFile_some h.file
  unfold threadWorker Disposed
  simp only [h.dir, Bool.true_eq_false, if_false]
  cases hcurl : o.curl with
  | false => simp [hempty]
  | true =>
  cases hdown : (download env task o t).1 with
  | false => simp [hn]
  | true =>
  cases hok : downloadOK o with
  | false => simp [removeTmp_node h.file]
  | true =>
  simp only [Bool.true_eq_false, if_false, true_and, false_and, false_or]
  cases hsig : (fileSig env task o t).1 with
  | none => simp [hn]
  | some sig =>
    have hnode := moveTo_node h.file sig
    by_cases hmove : (moveTo env task o t sig).1 = 0
    · simp [hmove, callback_tree, hnode]
    · simp [hmove, hnode]

theorem tmp_gone_iff_instance :
    let o := calm [.body [0x61] (some 1)]
    let l := ["abcdefghijklmnop.mp3".toList, "tmp".toList, "s".toList]
    Created sampleSetting sampleTask o emptyStore l ∧
      (threadWorker sampleSetting sampleTask o emptyStore).tree.node l = none := by
  have hmade : Created sampleSetting sampleTask (calm [.body [0x61] (some 1)]) emptyStore
      ["abcdefghijklmnop.mp3".toList, "tmp".toList, "s".toList] := by
    constructor <;> decide +kernel
  refine ⟨hmade, (tmp_gone_iff sampleSetting sampleTask _ emptyStore _ hmade).mpr ?_⟩
  refine ⟨rfl, by decide +kernel, .inr ⟨rfl, signature sampleMd5 [0x61], ?_⟩⟩
  decide +kernel

theorem failed_move_keeps_tmp :
    let o : Outside := { calm [.body [0x61] (some 1)] with moveFaults := [true] }
    let it := threadWorker sampleSetting sampleTask o emptyStore
    it.raised = false ∧ (emptyStore : Volume Bytes).content [] "/s/tmp/abcdefghijklmnop.mp3".toList = none ∧
      it.tree.content [] "/s/tmp/abcdefghijklmnop.mp3".toList = some [0x61] := by
  decide +kernel

end Calcsig.Server.WorkerResources
