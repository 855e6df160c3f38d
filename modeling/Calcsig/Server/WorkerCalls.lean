import Calcsig.Foundation.Interleavings
import Calcsig.Server.Worker
import Calcsig.Utils.RandString

namespace Calcsig.Server.WorkerCalls

open Foundation.Text Foundation.FileTree Foundation.FileCalls Foundation.Programs
open Utils.ContentSignature Utils.MoveFile Utils.RandString Store.Publishing Transfer Worker

/-- One task of a worker, and what happens outside while it is dealt with: the
results of `rand`, whether there is a transfer handle, the writes of the
transfer with the place where the opened file is by then, how the transfer
ends (`none` is an exception), and the signature that is made of what can be
read (`none` is a failed read). -/
structure Round where
  task : HttpTask
  draws : ℕ → ℕ
  curl : Bool
  writes : List (Loc × Bytes)
  transfer : Option Bool
  sig : Option (UInt32 × UInt32)

def Round.path (base : Str) (r : Round) : Str :=
  tmpPath base (randString r.draws 16 true true) r.task.fileFormat

def edits : List (Loc × Bytes) → Prog (FileCall Bytes) Unit
  | [] => .ret ()
  | (l, b) :: rest => .call (.edit l (· ++ b)) (fun _ ↦ edits rest)

def moveIn (base : Str) (r : Round) (sig : UInt32 × UInt32) : Prog (FileCall Bytes) Unit :=
  ((mvfile (r.path base) (targetPath base sig r.task.fileFormat)).mapCall .sys).bind (fun _ ↦ .ret ())

def signAndMove (base : Str) (r : Round) : Prog (FileCall Bytes) Unit :=
  .call (.openRead (r.path base)) (fun ok ↦
    if ok = false then .ret ()
    else
      match r.sig with
      | none => .ret ()
      | some sig => moveIn base r sig)

def finish (base : Str) (r : Round) : Prog (FileCall Bytes) Unit :=
  match r.transfer with
  | none => .ret ()
  | some false => .call (.remove (r.path base)) (fun _ ↦ .ret ())
  | some true => signAndMove base r

variable {Ctx : Type} (env : Setting Ctx)

/-- The calls on files in one round of the worker's loop. The worker does not
check whether the temporary file could be opened. -/
def round (r : Round) : Prog (FileCall Bytes) Unit :=
  ((ensureTmpDir env).mapCall .sys).bind (fun ready ↦
    if ready = false then .ret ()
    else .call (.openTrunc (r.path env.basePath) 0o644 []) (fun opened ↦
      if r.curl = false then .ret ()
      else (if opened then edits r.writes else .ret ()).bind (fun _ ↦ finish env.basePath r)))

def rounds : List Round → Prog (FileCall Bytes) Unit
  | [] => .ret ()
  | r :: rest => (round env r).bind (fun _ ↦ rounds rest)

section Alone

variable (task : HttpTask) (o : Outside) (t : Volume Bytes)

/-- The writes of a transfer into the file at the given place, up to the header
line that raises an exception. -/
def writesOf (l : Loc) : List Arrival → List (Loc × Bytes)
  | [] => []
  | .header line :: arrivals =>
    if (scanLength line 0).isNone then [] else writesOf l arrivals
  | .body chunk write :: arrivals => (l, written chunk write) :: writesOf l arrivals

def roundOf (draws : ℕ → ℕ) : Round where
  task := task
  draws := draws
  curl := o.curl
  writes := (tmpFile env task o t).1.toList.flatMap (fun l ↦ writesOf l o.arrivals)
  transfer := if (download env task o t).1 then some (downloadOK o) else none
  sig := (fileSig env task o t).1

structure NothingRefused : Prop where
  tmpFaults : o.tmpFaults = []
  openRefused : o.openRefused = false
  removeRefused : o.removeRefused = false
  sigRefused : o.sigReads.openRefused = false
  moveFaults : o.moveFaults = []

theorem scanLength_isNone (line : HeaderLine) (known : ℕ) :
    (scanLength line known).isNone = (scanLength line 0).isNone := by
  unfold scanLength
  split
  · rfl
  · split
    · rfl
    · rfl

theorem exec_edits (cwd : Loc) (writes : List (Loc × Bytes)) (t : Volume Bytes) :
    ((edits writes).exec (fileAnswer cwd) t).2 =
      writes.foldl (fun t w ↦ updateFile t w.1 (· ++ w.2)) t := by
  induction writes generalizing t with
  | nil => rfl
  | cons w writes ih => exact ih _

theorem perform_tree (s : Download) (arrivals : List Arrival) :
    (perform s arrivals).2.tree =
      (s.info.fd.toList.flatMap (fun l ↦ writesOf l arrivals)).foldl
        (fun t w ↦ updateFile t w.1 (· ++ w.2)) s.tree := by
  induction arrivals generalizing s with
  | nil => cases hfd : s.info.fd <;> simp [perform, writesOf]
  | cons a arrivals ih =>
    cases a with
    | header line =>
      have hnone := scanLength_isNone line s.info.contentLength
      cases hscan : scanLength line s.info.contentLength with
      | none =>
        rw [hscan] at hnone
        cases hfd : s.info.fd <;> simp [perform, headReader, hscan, writesOf, ← hnone]
      | some n =>
        rw [hscan] at hnone
        simp only [perform, headReader, hscan, Option.map_some, ih, writesOf, ← hnone]
        simp
    | body chunk write =>
      simp only [perform, ih, writesOf, dataReader]
      cases hfd : s.info.fd <;> simp

variable {env task o t} {draws : ℕ → ℕ}

theorem exec_ensureTmpDir (h : NothingRefused o) :
    (ensureTmpDir env).exec (answer env.cwd) t = tmpDir env o t := by
  simp only [tmpDir, h.tmpFaults, exec_faulty_nil]

theorem openTrunc_tmpFile (h : NothingRefused o) :
    openTrunc env.cwd (tmpRealPath env task o) 0o644 [] (tmpDir env o t).2 = tmpFile env task o t := by
  simp [tmpFile, h.openRefused]

theorem exec_writes :
    (((if (tmpFile env task o t).1.isSome then edits (roundOf env task o t draws).writes
        else .ret ()).exec (fileAnswer env.cwd) (tmpFile env task o t).2)).2 =
      (download env task o t).2.tree := by
  rw [download, perform_tree]
  cases hfd : (tmpFile env task o t).1 with
  | none => simp
  | some l => simp [roundOf, hfd, exec_edits]

theorem path_roundOf (hname : o.name = randString draws 16 true true) :
    (roundOf env task o t draws).path env.basePath = tmpRealPath env task o := by
  rw [Round.path, tmpRealPath, hname]
  rfl

theorem exec_moveIn (h : NothingRefused o) (hname : o.name = randString draws 16 true true)
    (sig : UInt32 × UInt32) :
    ((moveIn env.basePath (roundOf env task o t draws) sig).exec (fileAnswer env.cwd)
      (download env task o t).2.tree).2 = (moveTo env task o t sig).2 := by
  simp only [moveIn, Prog.exec_bind, Prog.exec_ret, moveTo, h.moveFaults, exec_faulty_nil,
    path_roundOf hname]
  exact congrArg Prod.snd (Prog.exec_mapCall (fun _ ↦ rfl) _ _)

theorem exec_signAndMove (h : NothingRefused o) (hname : o.name = randString draws 16 true true) :
    ((signAndMove env.basePath (roundOf env task o t draws)).exec (fileAnswer env.cwd)
      (download env task o t).2.tree).2 =
      match (fileSig env task o t).1 with
      | none => (download env task o t).2.tree
      | some sig => (moveTo env task o t sig).2 := by
  have hanswer (t' : Volume Bytes) : fileAnswer env.cwd (.openRead (tmpRealPath env task o)) t' =
      ((openRead env.cwd (tmpRealPath env task o) t').isSome, t') := rfl
  rw [signAndMove, Prog.exec_call, path_roundOf hname, hanswer]
  by_cases hread : (openRead env.cwd (tmpRealPath env task o)
    (download env task o t).2.tree).isSome = false
  · rw [if_pos hread]
    have hnone : openRead env.cwd (tmpRealPath env task o) (download env task o t).2.tree = none := by
      simpa using hread
    have hsig : (fileSig env task o t).1 = none := by
      simp [fileSig, calcSig, h.sigRefused, hnone]
    simp [hsig]
  · rw [if_neg hread]
    change (Prog.exec _ (match (fileSig env task o t).1 with
      | none => Prog.ret ()
      | some sig => moveIn env.basePath (roundOf env task o t draws) sig) _).2 = _
    cases (fileSig env task o t).1 with
    | none => rfl
    | some sig => exact exec_moveIn h hname sig

theorem exec_finish (h : NothingRefused o) (hname : o.name = randString draws 16 true true) :
    ((finish env.basePath (roundOf env task o t draws)).exec (fileAnswer env.cwd)
      (download env task o t).2.tree).2 =
      if (download env task o t).1 = false then (download env task o t).2.tree
      else if downloadOK o = false then (removeTmp env task o t).2
      else match (fileSig env task o t).1 with
        | none => (download env task o t).2.tree
        | some sig => (moveTo env task o t sig).2 := by
  cases hdown : (download env task o t).1 with
  | false => simp [finish, roundOf, hdown]
  | true =>
    cases hok : downloadOK o with
    | false =>
      have hremove : (finish env.basePath (roundOf env task o t draws)) =
          .call (.remove (tmpRealPath env task o)) (fun _ ↦ .ret ()) := by
        rw [← path_roundOf (t := t) hname]
        simp [finish, roundOf, hdown, hok]
      simp [hremove, fileAnswer, removeTmp, h.removeRefused]
    | true =>
      have hsign : finish env.basePath (roundOf env task o t draws) =
          signAndMove env.basePath (roundOf env task o t draws) := by
        simp [finish, roundOf, hdown, hok]
      rw [hsign, exec_signAndMove h hname]
      simp

/-- Alone and with no call refused, the calls leave the files as the round of the
sequential worker does. -/
theorem exec_round (h : NothingRefused o) (hname : o.name = randString draws 16 true true) :
    ((round env (roundOf env task o t draws)).exec (fileAnswer env.cwd) t).2 =
      (threadWorker env task o t).tree := by
  have hdir : ((ensureTmpDir env).mapCall .sys).exec (fileAnswer env.cwd) t = tmpDir env o t :=
    (Prog.exec_mapCall (fun _ ↦ rfl) _ _).trans (exec_ensureTmpDir h)
  simp only [round, Prog.exec_bind, hdir, threadWorker]
  cases hready : (tmpDir env o t).1 with
  | false => rfl
  | true =>
    simp only [Bool.true_eq_false, if_false, Prog.exec_call, fileAnswer, path_roundOf hname,
      openTrunc_tmpFile h]
    change (Prog.exec _ (if o.curl = false then _ else _) _).2 = _
    cases hcurl : o.curl with
    | false => rfl
    | true =>
      simp only [Bool.true_eq_false, if_false, Prog.exec_bind, exec_writes, exec_finish h hname]
      split
      · rfl
      · split
        · rfl
        · cases (fileSig env task o t).1 with
          | none => rfl
          | some sig =>
            simp only
            split
            · rfl
            · exact (callback_tree sig).symm

end Alone

end Calcsig.Server.WorkerCalls
