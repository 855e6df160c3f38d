import Calcsig.Foundation.Inodes
import Calcsig.Foundation.Runs
import Calcsig.Server.Worker
import Calcsig.Utils.RandString

namespace Calcsig.Server.SmallSteps

open Function Foundation.Text Foundation.FileTree Foundation.FileCalls Foundation.Programs
open Foundation.Inodes Foundation.Runs Utils.ContentSignature Utils.SigPath Utils.MoveFile
open Utils.RandString Store.Publishing Transfer Worker

/-- A task in a worker's hands, and the temporary path made for it. -/
structure Job where
  task : HttpTask
  path : Str

structure Progress where
  fd : Option Fd
  contentLength : ℕ
  contentRead : ℕ

/-- Where a worker is in its loop: without a task, or before the next call that
reaches the disk or the network. -/
inductive Phase (Ctx : Type)
  | idle
  | tmpDir (job : Job) (c : SysCall) (next : Bool → Prog SysCall Bool)
  | opening (job : Job)
  | starting (job : Job) (fd : Option Fd)
  | transferring (job : Job) (info : Progress)
  | removing (job : Job)
  | sigOpening (job : Job) (length : ℕ)
  | sigReading (job : Job) (length : ℕ) (fd : Fd) (ctx : Ctx)
  | moving (job : Job) (length : ℕ) (sig : UInt32 × UInt32) (c : SysCall)
      (next : Bool → Prog SysCall ℤ)
  | posting (job : Job) (length : ℕ) (sig : UInt32 × UInt32)
  | raised

/-- What happens outside at one step of a worker: whether the system call is
refused, how much a `read` brings, what the transfer delivers next and how it
ends when nothing more comes, whether there is a transfer handle, and what
comes back for a callback. -/
structure Moment where
  refused : Bool
  count : ℕ
  arrival : Option Arrival
  performed : Bool
  responseCode : ℤ
  curl : Bool
  answers : List Answer

variable {Ctx : Type} (env : Setting Ctx)

namespace Phase

def job : Phase Ctx → Option Job
  | idle | raised => none
  | tmpDir job _ _ | opening job | starting job _ | transferring job _ | removing job => some job
  | sigOpening job _ | sigReading job _ _ _ | moving job _ _ _ _ | posting job _ _ => some job

def afterTmpDir (job : Job) : Prog SysCall Bool → Phase Ctx
  | .call c next => .tmpDir job c next
  | .ret ready => if ready then .opening job else .idle

def afterMove (job : Job) (length : ℕ) (sig : UInt32 × UInt32) : Prog SysCall ℤ → Phase Ctx
  | .call c next => .moving job length sig c next
  | .ret r => if r ≠ 0 then .idle else .posting job length sig

def begin (task : HttpTask) (draws : ℕ → ℕ) : Phase Ctx :=
  afterTmpDir ⟨task, tmpPath env.basePath (randString draws 16 true true) task.fileFormat⟩
    (ensureTmpDir env)

end Phase

def sysCall (m : Moment) (c : SysCall) (d : Disk UInt8) : Bool × Disk UInt8 :=
  if m.refused then (false, d) else d.sys env.cwd c

def dataReader (info : Progress) (chunk : Bytes) (outcome : Option ℕ) (d : Disk UInt8) :
    Progress × Disk UInt8 :=
  let contentRead := (info.contentRead + chunk.length) % UInt64.size
  match info.fd with
  | none => ({ info with contentRead := contentRead }, d)
  | some fd =>
    let out := d.write 0 fd (written chunk outcome)
    ({ info with fd := some out.1, contentRead := contentRead }, out.2)

def itemOf (task : HttpTask) (length : ℕ) (sig : UInt32 × UInt32) : Item where
  actionId := cString task.actionId
  fileSig1 := sig.1
  fileSig2 := sig.2
  filePath := cString (sigPath sig.1 sig.2 task.fileFormat)
  fileSize := length
  myIp := cString env.myIp
  table := cString task.table

/-- Whether the answer to a callback is read without an exception. -/
def readable (answers : List Answer) : Bool :=
  match performCallback ⟨0, 0, []⟩ answers with
  | none => false
  | some info =>
    ((env.parse info.content).bind (fun read ↦ read.2.member "ret".toList)).isSome

def work (m : Moment) : Phase Ctx → Disk UInt8 → Phase Ctx × Disk UInt8
  | .idle, d => (.idle, d)
  | .raised, d => (.raised, d)
  | .tmpDir job c next, d =>
    let out := sysCall env m c d
    (.afterTmpDir job (next out.1), out.2)
  | .opening job, d =>
    let out := if m.refused then (none, d) else d.openTrunc env.cwd job.path 0o644
    (.starting job out.1, out.2)
  | .starting job fd, d => (if m.curl then .transferring job ⟨fd, 0, 0⟩ else .idle, d)
  | .transferring job info, d =>
    match m.arrival with
    | some (.header line) =>
      match scanLength line info.contentLength with
      | none => (.raised, d)
      | some n => (.transferring job { info with contentLength := n }, d)
    | some (.body chunk outcome) =>
      let out := dataReader info chunk outcome d
      (.transferring job out.1, out.2)
    | none =>
      (if m.performed && m.responseCode == 200 then .sigOpening job info.contentLength
        else .removing job, d)
  | .removing job, d => (.idle, if m.refused then d else (d.remove env.cwd job.path).2)
  | .sigOpening job length, d =>
    (match if m.refused then none else d.openRead env.cwd job.path with
      | none => .idle
      | some fd => .sigReading job length fd env.md5.init, d)
  | .sigReading job length fd ctx, d =>
    let b := d.read fd (min bufSize (m.count + 1))
    (if m.refused then .idle
      else if b = [] then
        let sig := signatureOf (env.md5.final ctx)
        .afterMove job length sig (mvfile job.path (targetPath env.basePath sig job.task.fileFormat))
      else .sigReading job length ⟨fd.ino, fd.pos + b.length⟩ (env.md5.update ctx b), d)
  | .moving job length sig c next, d =>
    let out := sysCall env m c d
    (.afterMove job length sig (next out.1), out.2)
  | .posting _ _ _, d => (if m.curl && !readable env m.answers then .raised else .idle, d)

def posted (m : Moment) : Phase Ctx → Option Item
  | .posting job length sig => if m.curl then some (itemOf env job.task length sig) else none
  | _ => none

section Alone

def alone (s : Phase Ctx × Disk UInt8) (m : Moment) : Phase Ctx × Disk UInt8 := work env m s.1 s.2

def posts (s : Phase Ctx × Disk UInt8) (m : Moment) : List Item := (posted env m s.1).toList

def Reaches (s s' : Phase Ctx × Disk UInt8) (items : List Item) : Prop :=
  ∃ ms, run (alone env) s ms = s' ∧ trace (alone env) (posts env) s ms = items

def granted : Moment := ⟨false, 0, none, false, 0, true, []⟩

variable {env}

theorem Reaches.refl (s : Phase Ctx × Disk UInt8) : Reaches env s s [] := ⟨[], rfl, rfl⟩

theorem Reaches.trans {s s' s'' : Phase Ctx × Disk UInt8} {items items' : List Item}
    (h : Reaches env s s' items) (h' : Reaches env s' s'' items') :
    Reaches env s s'' (items ++ items') := by
  obtain ⟨ms, rfl, rfl⟩ := h
  obtain ⟨ms', rfl, rfl⟩ := h'
  exact ⟨ms ++ ms', run_append s ms ms', trace_append _ s ms ms'⟩

theorem Reaches.step {s s' : Phase Ctx × Disk UInt8} {items : List Item} (m : Moment)
    (h : Reaches env (work env m s.1 s.2) s' items) (hp : posted env m s.1 = none) :
    Reaches env s s' items := by
  obtain ⟨ms, rfl, rfl⟩ := h
  refine ⟨m :: ms, rfl, ?_⟩
  rw [trace, posts, hp]
  rfl

theorem sysCall_faulty (env : Setting Ctx) (c : SysCall) (faults : List Bool) (d : Disk UInt8) :
    ∃ m faults', faulty (answer env.cwd) c (faults, d.view) =
      ((sysCall env m c d).1, faults', (sysCall env m c d).2.view) := by
  match faults with
  | [] => exact ⟨granted, [], by simp only [faulty, d.view_sys, sysCall, granted]; rfl⟩
  | true :: faults => exact ⟨{ granted with refused := true }, faults, rfl⟩
  | false :: faults => exact ⟨granted, faults, by simp only [faulty, d.view_sys, sysCall, granted]; rfl⟩

theorem reaches_program (env : Setting Ctx) {α : Type} (after : Prog SysCall α → Phase Ctx)
    (hwork : ∀ m c next d, work env m (after (.call c next)) d =
      (after (next (sysCall env m c d).1), (sysCall env m c d).2))
    (hposted : ∀ m c next, posted env m (after (.call c next)) = none)
    (p : Prog SysCall α) (faults : List Bool) (d : Disk UInt8) :
    let out := p.exec (faulty (answer env.cwd)) (faults, d.view)
    ∃ d' : Disk UInt8, d'.view = out.2.2 ∧ Reaches env (after p, d) (after (.ret out.1), d') [] := by
  induction p generalizing faults d with
  | ret a => exact ⟨d, rfl, .refl _⟩
  | call c next ih =>
    obtain ⟨m, faults', hm⟩ := sysCall_faulty env c faults d
    obtain ⟨d', hview, hreach⟩ := ih (sysCall env m c d).1 faults' (sysCall env m c d).2
    rw [Prog.exec_call, hm]
    exact ⟨d', hview, .step m (by rw [hwork]; exact hreach) (hposted _ _ _)⟩

/-- The disk and the progress of a transfer, against the tree and the download of
the sequential model. -/
structure Carries (info : Progress) (d : Disk UInt8) (s : Download) : Prop where
  tree : s.tree = d.view
  contentLength : s.info.contentLength = info.contentLength
  contentRead : s.info.contentRead = info.contentRead
  closed : s.info.fd = none ↔ info.fd = none
  opened : ∀ {l fd}, s.info.fd = some l → info.fd = some fd →
    ∃ p, d.names.node l = some (.file p fd.ino) ∧ fd.pos = (d.data fd.ino).length

theorem Carries.header {info : Progress} {d : Disk UInt8} {s : Download} (h : Carries info d s) (n : ℕ) :
    Carries { info with contentLength := n } d { s with info := { s.info with contentLength := n } } :=
  ⟨h.tree, rfl, h.contentRead, h.closed, h.opened⟩

theorem Carries.body {info : Progress} {d : Disk UInt8} {s : Download} (h : Carries info d s)
    (chunk : Bytes) (outcome : Option ℕ) :
    Carries (dataReader info chunk outcome d).1 (dataReader info chunk outcome d).2
      (Transfer.dataReader chunk outcome s) := by
  unfold dataReader Transfer.dataReader
  cases hfd : info.fd with
  | none =>
    have hclosed := h.closed.mpr hfd
    refine ⟨?_, h.contentLength, ?_, by simp [hclosed], by simp⟩
    · simp only [hclosed, h.tree]
    · simp only [h.contentRead]
  | some fd =>
    obtain ⟨l, hl⟩ : ∃ l, s.info.fd = some l := Option.ne_none_iff_exists'.mp fun hnone ↦ by
      simp [h.closed.mp hnone] at hfd
    obtain ⟨p, hnode, hpos⟩ := h.opened hl hfd
    refine ⟨?_, h.contentLength, ?_, by simp [hl], fun {l' fd'} hl' hfd' ↦ ?_⟩
    · simp only [hl, h.tree, d.view_write 0 hnode hpos]
    · simp only [h.contentRead]
    · obtain rfl : l = l' := Option.some.inj (hl.symm.trans hl')
      obtain rfl : _ = fd' := Option.some.inj hfd'
      refine ⟨p, hnode, ?_⟩
      simp [Disk.write, hpos, splice_end]

theorem reaches_transfer (job : Job) (arrivals : List Arrival) {info : Progress} {d : Disk UInt8}
    {s : Download} (h : Carries info d s) :
    ∃ d' : Disk UInt8, d'.view = (perform s arrivals).2.tree ∧
      ((perform s arrivals).1 = false → Reaches env (.transferring job info, d) (.raised, d') []) ∧
      ((perform s arrivals).1 = true → ∃ info' : Progress,
        info'.contentLength = (perform s arrivals).2.info.contentLength ∧
        Reaches env (.transferring job info, d) (.transferring job info', d') []) := by
  induction arrivals generalizing info d s with
  | nil => exact ⟨d, h.tree.symm, fun hf ↦ (by cases hf), fun _ ↦ ⟨info, h.contentLength.symm, .refl _⟩⟩
  | cons a arrivals ih =>
    cases a with
    | header line =>
      have hscan : (headReader line s.info) = (scanLength line info.contentLength).map
          (fun n ↦ { s.info with contentLength := n }) := by rw [headReader, h.contentLength]
      cases hn : scanLength line info.contentLength with
      | none =>
        simp only [perform, hscan, hn, Option.map_none]
        refine ⟨d, h.tree.symm, fun _ ↦ ?_, fun ht ↦ (by cases ht)⟩
        refine .step { granted with arrival := some (.header line) } ?_ rfl
        simp only [work, hn]
        exact .refl _
      | some n =>
        simp only [perform, hscan, hn, Option.map_some]
        obtain ⟨d', hview, hraised, hdone⟩ := ih (h.header n)
        have hfirst {s' : Phase Ctx × Disk UInt8}
            (hs' : Reaches env (.transferring job { info with contentLength := n }, d) s' []) :
            Reaches env (.transferring job info, d) s' [] := by
          refine .step { granted with arrival := some (.header line) } ?_ rfl
          simpa only [work, hn] using hs'
        refine ⟨d', hview, fun hf ↦ hfirst (hraised hf), fun ht ↦ ?_⟩
        obtain ⟨info', hlength, hreach⟩ := hdone ht
        exact ⟨info', hlength, hfirst hreach⟩
    | body chunk outcome =>
      obtain ⟨d', hview, hraised, hdone⟩ := ih (h.body chunk outcome)
      have hfirst {s' : Phase Ctx × Disk UInt8}
          (hs' : Reaches env (.transferring job (dataReader info chunk outcome d).1,
            (dataReader info chunk outcome d).2) s' []) :
          Reaches env (.transferring job info, d) s' [] :=
        .step { granted with arrival := some (.body chunk outcome) } hs' rfl
      refine ⟨d', hview, fun hf ↦ hfirst (hraised hf), fun ht ↦ ?_⟩
      obtain ⟨info', hlength, hreach⟩ := hdone ht
      exact ⟨info', hlength, hfirst hreach⟩

def afterSig (env : Setting Ctx) (job : Job) (length : ℕ) : Option (UInt32 × UInt32) → Phase Ctx
  | none => .idle
  | some sig =>
    .afterMove job length sig (mvfile job.path (targetPath env.basePath sig job.task.fileFormat))

theorem count_of_reads (reads : List (Option ℕ)) :
    ∃ count, min bufSize (count + 1) = nextCount reads := by
  unfold nextCount
  split
  · exact ⟨_, rfl⟩
  · exact ⟨bufSize, min_eq_left (Nat.le_succ _)⟩

theorem drop_length_take (k : ℕ) (l : Bytes) : l.drop (l.take k).length = l.drop k := by
  have h : (l.take k ++ l.drop k).drop (l.take k).length = l.drop k := List.drop_left
  rwa [List.take_append_drop] at h

theorem reaches_reading (env : Setting Ctx) (job : Job) (length n : ℕ) (reads : List (Option ℕ))
    (fd : Fd) (ctx : Ctx) (d : Disk UInt8) (hn : ((d.data fd.ino).drop fd.pos).length ≤ n) :
    Reaches env (.sigReading job length fd ctx, d)
      (afterSig env job length ((readLoop env.md5 n reads ((d.data fd.ino).drop fd.pos) ctx).map
        (fun ctx ↦ signatureOf (env.md5.final ctx))), d) [] := by
  induction n generalizing reads fd ctx with
  | zero =>
    have hempty := List.length_eq_zero_iff.mp (Nat.le_zero.mp hn)
    by_cases hfail : reads.head? = some none
    · refine .step { granted with refused := true } ?_ rfl
      simp only [readLoop, hfail, if_true]
      exact .refl _
    · refine .step granted ?_ rfl
      simp only [readLoop, hfail, if_false, work, Disk.read, hempty]
      exact .refl _
  | succ n ih =>
    by_cases hfail : reads.head? = some none
    · refine .step { granted with refused := true } ?_ rfl
      simp only [readLoop, hfail, if_true]
      exact .refl _
    · by_cases hempty : (d.data fd.ino).drop fd.pos = []
      · refine .step granted ?_ rfl
        simp only [readLoop, hfail, hempty, if_true, if_false, work, Disk.read]
        exact .refl _
      · obtain ⟨count, hcount⟩ := count_of_reads reads
        have hpos := nextCount_pos reads
        have hlen := List.length_pos_iff.mpr hempty
        have hb : ((d.data fd.ino).drop fd.pos).take (nextCount reads) ≠ [] := by
          rw [← List.length_pos_iff, List.length_take]
          omega
        have hrest := drop_length_take (nextCount reads) ((d.data fd.ino).drop fd.pos)
        have hnext := ih reads.tail ⟨fd.ino, fd.pos +
            (((d.data fd.ino).drop fd.pos).take (nextCount reads)).length⟩
          (env.md5.update ctx (((d.data fd.ino).drop fd.pos).take (nextCount reads)))
        rw [← List.drop_drop, hrest] at hnext
        refine .step { granted with count := count } ?_ rfl
        simp only [readLoop, hfail, hempty, if_false, work, Disk.read, hcount, hb, granted]
        exact hnext (by rw [List.length_drop]; omega)

section Round

variable (task : HttpTask) (o : Outside) (d : Disk UInt8)

def jobOf (env : Setting Ctx) : Job := ⟨task, tmpRealPath env task o⟩

theorem reaches_tmpDir (env : Setting Ctx) :
    ∃ d' : Disk UInt8, d'.view = (tmpDir env o d.view).2 ∧
      Reaches env (.afterTmpDir (jobOf task o env) (ensureTmpDir env), d)
        (.afterTmpDir (jobOf task o env) (.ret (tmpDir env o d.view).1), d') [] :=
  reaches_program env (Phase.afterTmpDir (jobOf task o env)) (fun _ _ _ _ ↦ rfl)
    (fun _ _ _ ↦ rfl) (ensureTmpDir env) o.tmpFaults d

variable {d} {t : Volume Bytes}

theorem reaches_opening (hd : d.view = (tmpDir env o t).2) :
    ∃ fd, ∃ d' : Disk UInt8, Carries ⟨fd, 0, 0⟩ d' ⟨⟨(tmpFile env task o t).1, 0, 0⟩,
        (tmpFile env task o t).2⟩ ∧
      Reaches env (.opening (jobOf task o env), d) (.starting (jobOf task o env) fd, d') [] := by
  cases hr : o.openRefused with
  | true =>
    refine ⟨none, d, ⟨?_, rfl, rfl, ?_, fun _ hfd ↦ (by cases hfd)⟩, .step { granted with refused := true } (.refl _) rfl⟩
    · simp only [tmpFile, hr, if_true, hd]
    · simp only [tmpFile, hr, if_true]
  | false =>
    have hview := d.view_openTrunc env.cwd (tmpRealPath env task o) 0o644
    rw [hd] at hview
    have hfile : tmpFile env task o t = openTrunc env.cwd (tmpRealPath env task o) 0o644 []
        (tmpDir env o t).2 := by simp [tmpFile, hr]
    rw [hview] at hfile
    refine ⟨(d.openTrunc env.cwd (tmpRealPath env task o) 0o644).1,
      (d.openTrunc env.cwd (tmpRealPath env task o) 0o644).2,
      ⟨congrArg Prod.snd hfile, rfl, rfl, ?_, fun {l fd} hl hfd ↦ ?_⟩, .step granted (.refl _) rfl⟩
    · rw [hfile]
      simp
    · rw [hfile] at hl
      rcases Disk.openTrunc_cases env.cwd (tmpRealPath env task o) 0o644 d with
        he | ⟨p, i, -, hi, hopened⟩
      · simp [he] at hl
      · obtain rfl : _ = fd := Option.some.inj (hi.symm.trans hfd)
        rw [hi] at hl
        obtain rfl := Option.some.inj hl
        exact ⟨p, hopened.node, by simp [hopened.empty]⟩

theorem reaches_download {fd : Option Fd}
    (hd : Carries ⟨fd, 0, 0⟩ d ⟨⟨(tmpFile env task o t).1, 0, 0⟩, (tmpFile env task o t).2⟩) :
    ∃ d' : Disk UInt8, d'.view = (download env task o t).2.tree ∧
      ((download env task o t).1 = false →
        Reaches env (.transferring (jobOf task o env) ⟨fd, 0, 0⟩, d) (.raised, d') []) ∧
      ((download env task o t).1 = true →
        Reaches env (.transferring (jobOf task o env) ⟨fd, 0, 0⟩, d)
          (if downloadOK o then .sigOpening (jobOf task o env) (download env task o t).2.info.contentLength
            else .removing (jobOf task o env), d') []) := by
  obtain ⟨d', hview, hraised, hdone⟩ := reaches_transfer (jobOf task o env) o.arrivals hd
  refine ⟨d', hview, hraised, fun ht ↦ ?_⟩
  obtain ⟨info', hlength, hreach⟩ := hdone ht
  refine hreach.trans (.step
    { granted with performed := o.performed, responseCode := o.responseCode } ?_ rfl)
  simp only [work, granted, hlength, downloadOK, download]
  exact .refl _

theorem reaches_removing (hd : d.view = (download env task o t).2.tree) :
    ∃ d' : Disk UInt8, d'.view = (removeTmp env task o t).2 ∧
      Reaches env (.removing (jobOf task o env), d) (.idle, d') [] := by
  refine ⟨if o.removeRefused then d else (d.remove env.cwd (tmpRealPath env task o)).2, ?_,
    .step { granted with refused := o.removeRefused } (.refl _) rfl⟩
  cases hr : o.removeRefused with
  | true => simp [removeTmp, hr, hd]
  | false => simp [removeTmp, hr, ← hd, d.view_remove]

theorem reaches_signing (hd : d.view = (download env task o t).2.tree) (length : ℕ) :
    Reaches env (.sigOpening (jobOf task o env) length, d)
      (afterSig env (jobOf task o env) length (fileSig env task o t).1, d) [] := by
  cases hr : o.sigReads.openRefused with
  | true =>
    refine .step { granted with refused := true } ?_ rfl
    simp only [fileSig, calcSig, hr, if_true]
    exact .refl _
  | false =>
    have hread := d.view_openRead env.cwd (tmpRealPath env task o)
    rw [hd] at hread
    refine .step granted ?_ rfl
    cases hfd : d.openRead env.cwd (tmpRealPath env task o) with
    | none =>
      simp only [work, granted, jobOf, hfd, fileSig, calcSig, hr, hread]
      exact .refl _
    | some fd =>
      obtain ⟨hpos, -⟩ := Disk.openRead_file hfd
      have hloop := reaches_reading env (jobOf task o env) length (d.data fd.ino).length
        o.sigReads.reads fd env.md5.init d (by rw [hpos]; exact le_rfl)
      rw [hpos, List.drop_zero] at hloop
      have hsig : (fileSig env task o t).1 = (readLoop env.md5 (d.data fd.ino).length o.sigReads.reads
          (d.data fd.ino) env.md5.init).map (fun ctx ↦ signatureOf (env.md5.final ctx)) := by
        simp only [fileSig, calcSig, hr, hread, hfd, Option.map_some, Bool.false_eq_true, if_false]
        cases readLoop env.md5 (d.data fd.ino).length o.sigReads.reads (d.data fd.ino) env.md5.init <;>
          rfl
      simp only [work, granted, jobOf, hfd, Bool.false_eq_true, if_false]
      rw [hsig]
      exact hloop

theorem reaches_moving (hd : d.view = (download env task o t).2.tree) (length : ℕ)
    (sig : UInt32 × UInt32) :
    ∃ d' : Disk UInt8, d'.view = (moveTo env task o t sig).2 ∧
      Reaches env (afterSig env (jobOf task o env) length (some sig), d)
        (.afterMove (jobOf task o env) length sig (.ret (moveTo env task o t sig).1), d') [] := by
  have hprogram := reaches_program env
    (Phase.afterMove (jobOf task o env) length sig) (fun _ _ _ _ ↦ rfl) (fun _ _ _ ↦ rfl)
    (mvfile (tmpRealPath env task o) (targetPath env.basePath sig task.fileFormat)) o.moveFaults d
  rw [hd] at hprogram
  exact hprogram

theorem reaches_posting {sig : UInt32 × UInt32} (hd : d.view = (moveTo env task o t sig).2) :
    d.view = (callback env task o t sig).tree ∧
      Reaches env (.posting (jobOf task o env) (download env task o t).2.info.contentLength sig, d)
        (if (callback env task o t sig).raised then .raised else .idle, d)
        (callback env task o t sig).posted.toList := by
  refine ⟨hd.trans (callback_tree sig).symm,
    [{ granted with curl := o.callbackCurl, answers := o.answers }], ?_, ?_⟩
  · have hraised : (callback env task o t sig).raised = (o.callbackCurl && !readable env o.answers) := by
      have hreadable : readable env o.answers = answered env o := rfl
      cases hc : o.callbackCurl <;> cases ha : answered env o <;> simp [callback, hc, ha, hreadable]
    rw [hraised]
    rfl
  · have hposted : (callback env task o t sig).posted =
        if o.callbackCurl then some (item env task o t sig) else none := by
      cases hc : o.callbackCurl <;> cases ha : answered env o <;> simp [callback, hc, ha]
    rw [hposted]
    exact List.append_nil _

/-- A worker alone can do in single steps whatever the sequential round of the
loop does: the same files, the same callback, the same exception. -/
theorem round_alone (env : Setting Ctx) (task : HttpTask) (o : Outside) (draws : ℕ → ℕ)
    (hname : o.name = randString draws 16 true true) (d : Disk UInt8) :
    ∃ d' : Disk UInt8, d'.view = (threadWorker env task o d.view).tree ∧
      Reaches env (.begin env task draws, d)
        (if (threadWorker env task o d.view).raised then .raised else .idle, d')
        (threadWorker env task o d.view).posted.toList := by
  have hbegin : (.begin env task draws : Phase Ctx) =
      .afterTmpDir (jobOf task o env) (ensureTmpDir env) := by
    rw [Phase.begin, jobOf, tmpRealPath, hname]
  rw [hbegin]
  unfold threadWorker
  obtain ⟨d₁, hd₁, hdir⟩ := reaches_tmpDir task o d env
  split
  · rename_i hready
    rw [hready] at hdir
    exact ⟨d₁, hd₁, hdir⟩
  rename_i hready
  simp only [Bool.not_eq_false] at hready
  rw [hready] at hdir
  obtain ⟨fd, d₂, hd₂, hopen⟩ := reaches_opening task o hd₁
  have htmp := hdir.trans hopen
  split
  · rename_i hcurl
    exact ⟨d₂, hd₂.tree.symm, htmp.trans (.step { granted with curl := false } (.refl _) rfl)⟩
  obtain ⟨d₃, hd₃, hraised, hdone⟩ := reaches_download task o hd₂
  have hstart := htmp.trans (.step granted (.refl (.transferring (jobOf task o env) ⟨fd, 0, 0⟩, d₂)) rfl)
  split
  · rename_i hdown
    exact ⟨d₃, hd₃, hstart.trans (hraised hdown)⟩
  rename_i hdown
  have hloaded := hstart.trans (hdone (by simpa using hdown))
  split
  · rename_i hok
    rw [hok] at hloaded
    obtain ⟨d₄, hd₄, hremove⟩ := reaches_removing task o hd₃
    exact ⟨d₄, hd₄, hloaded.trans hremove⟩
  rename_i hok
  simp only [Bool.not_eq_false] at hok
  rw [hok] at hloaded
  have hsigned := hloaded.trans (reaches_signing task o hd₃ _)
  cases hsig : (fileSig env task o d.view).1 with
  | none =>
    rw [hsig] at hsigned
    exact ⟨d₃, hd₃, hsigned⟩
  | some sig =>
    rw [hsig] at hsigned
    obtain ⟨d₄, hd₄, hmove⟩ := reaches_moving task o hd₃ (download env task o d.view).2.info.contentLength sig
    have hmoved := hsigned.trans hmove
    simp only
    split
    · rename_i hfail
      rw [Phase.afterMove, if_pos hfail] at hmoved
      exact ⟨d₄, hd₄, hmoved⟩
    · rename_i hfail
      rw [Phase.afterMove, if_neg hfail] at hmoved
      obtain ⟨htree, hpost⟩ := reaches_posting task o hd₄
      exact ⟨d₄, htree, hmoved.trans hpost⟩

def sampleDisk : Disk UInt8 :=
  ((Disk.bare.sys [] (.mkdir "/s".toList 0o755)).2.sys [] (.mkdir "/s/tmp".toList 0o755)).2

theorem round_alone_instance :
    let o := { calm [.body [0x61] (some 1)] with name := randString (fun _ ↦ 0) 16 true true }
    let round := threadWorker sampleSetting sampleTask o sampleDisk.view
    round.posted.isSome = true ∧ ∃ d' : Disk UInt8, d'.view = round.tree ∧
      Reaches sampleSetting (.begin sampleSetting sampleTask (fun _ ↦ 0), sampleDisk)
        (if round.raised then .raised else .idle, d') round.posted.toList :=
  ⟨by decide +kernel, round_alone sampleSetting sampleTask _ (fun _ ↦ 0) rfl sampleDisk⟩

end Round

end Alone

end Calcsig.Server.SmallSteps
