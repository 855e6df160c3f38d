import Calcsig.Foundation.Documents
import Calcsig.Server.Transfer
import Calcsig.Store.Publishing

namespace Calcsig.Server.Worker

open Foundation.Text Foundation.FileTree Foundation.FileCalls Foundation.Programs
open Foundation.Documents Utils.ContentSignature Utils.SigPath Utils.MoveFile
open Store.Publishing Transfer

structure HttpTask where
  actionId : Str
  srcUrl : Str
  fileFormat : Str
  table : Str
  callbackUrl : Str
deriving DecidableEq

/-- What a worker finds fixed: its working directory, the configuration, the
digest and the reader of documents. -/
structure Setting (Ctx : Type) where
  cwd : Loc
  basePath : Str
  myIp : Str
  md5 : Digest Ctx
  parse : Reader

/-- What happens outside during one iteration: the random name, the system
calls that are refused, what arrives from the network, and whether the
transfer library gives out its handles. -/
structure Outside where
  name : Str
  tmpFaults : List Bool
  openRefused : Bool
  curl : Bool
  arrivals : List Arrival
  performed : Bool
  responseCode : ℤ
  removeRefused : Bool
  sigReads : SigReads
  moveFaults : List Bool
  callbackCurl : Bool
  answers : List Answer

inductive Resource
  | task
  | info
  | descriptor
  | curl
  | sigDescriptor
  | callback
  | callbackCurl
  | headers
deriving DecidableEq

inductive Event
  | acquire : Resource → Event
  | release : Resource → Event
deriving DecidableEq

structure Item where
  actionId : Str
  fileSig1 : UInt32
  fileSig2 : UInt32
  filePath : Str
  fileSize : ℕ
  myIp : Str
  table : Str
deriving DecidableEq

/-- How an iteration ends: the files, what was acquired and released on the
way, what was posted, and whether an exception left the worker. -/
structure Iteration where
  tree : Volume Bytes
  events : List Event
  posted : Option Item
  raised : Bool

variable {Ctx : Type} (env : Setting Ctx) (task : HttpTask) (o : Outside) (t : Volume Bytes)

def tmpRealDir : Str := env.basePath ++ "/tmp/".toList

def tmpRealPath : Str := tmpPath env.basePath o.name task.fileFormat

def ensureTmpDir : Prog SysCall Bool :=
  .call (.access (tmpRealDir env) ⟨true, true, true⟩) (fun ok ↦
    if ok then .ret true
    else (mkdirs (tmpRealDir env) 0o700).bind (fun r ↦ .ret (r = 0)))

def tmpDir : Bool × Volume Bytes :=
  let out := (ensureTmpDir env).exec (faulty (answer env.cwd)) (o.tmpFaults, t)
  (out.1, out.2.2)

def tmpFile : Option Loc × Volume Bytes :=
  if o.openRefused then (none, (tmpDir env o t).2)
  else openTrunc env.cwd (tmpRealPath env task o) 0o644 [] (tmpDir env o t).2

def download : Bool × Download :=
  perform ⟨⟨(tmpFile env task o t).1, 0, 0⟩, (tmpFile env task o t).2⟩ o.arrivals

def downloadOK : Bool := o.performed && o.responseCode == 200

def removeTmp : Bool × Volume Bytes :=
  if o.removeRefused then (false, (download env task o t).2.tree)
  else remove env.cwd (tmpRealPath env task o) (download env task o t).2.tree

def fileSig : Option (UInt32 × UInt32) × List FdEvent :=
  calcSig env.md5 env.cwd (tmpRealPath env task o) o.sigReads (download env task o t).2.tree

def moveTo (sig : UInt32 × UInt32) : ℤ × Volume Bytes :=
  let out := (mvfile (tmpRealPath env task o) (targetPath env.basePath sig task.fileFormat)).exec
    (faulty (answer env.cwd)) (o.moveFaults, (download env task o t).2.tree)
  (out.1, out.2.2)

def item (sig : UInt32 × UInt32) : Item where
  actionId := cString task.actionId
  fileSig1 := sig.1
  fileSig2 := sig.2
  filePath := cString (sigPath sig.1 sig.2 task.fileFormat)
  fileSize := (download env task o t).2.info.contentLength
  myIp := cString env.myIp
  table := cString task.table

def response : Option CallbackInfo := performCallback ⟨0, 0, []⟩ o.answers

def answered : Bool :=
  match response o with
  | none => false
  | some info =>
    ((env.parse info.content).bind (fun read ↦ read.2.member "ret".toList)).isSome

def Resource.acquireIf (r : Resource) (fd : Option Loc) : List Event :=
  if fd.isSome then [.acquire r] else []

def Resource.releaseIf (r : Resource) (fd : Option Loc) : List Event :=
  if fd.isSome then [.release r] else []

def FdEvent.toEvent : FdEvent → Event
  | .opened => .acquire .sigDescriptor
  | .closed => .release .sigDescriptor

def opening : List Event :=
  .acquire .info :: Resource.descriptor.acquireIf (tmpFile env task o t).1

def closing : List Event :=
  opening env task o t ++ [.acquire .curl, .release .curl] ++
    Resource.descriptor.releaseIf (tmpFile env task o t).1

def signing : List Event :=
  closing env task o t ++ (fileSig env task o t).2.map FdEvent.toEvent

def callback (sig : UInt32 × UInt32) : Iteration :=
  let tree := (moveTo env task o t sig).2
  let events := signing env task o t ++ [.release .info, .acquire .callback]
  if o.callbackCurl = false then ⟨tree, events ++ [.release .callback], none, false⟩
  else if answered env o = false then
    ⟨tree, events ++ [.acquire .callbackCurl, .acquire .headers],
      some (item env task o t sig), true⟩
  else
    ⟨tree, events ++ [.acquire .callbackCurl, .acquire .headers, .release .callbackCurl,
      .release .headers, .release .task, .release .callback], some (item env task o t sig), false⟩

/-- One round of the worker's loop, for a task it has taken from the queue. -/
def threadWorker : Iteration :=
  if (tmpDir env o t).1 = false then ⟨(tmpDir env o t).2, [.release .task], none, false⟩
  else if o.curl = false then
    ⟨(tmpFile env task o t).2, opening env task o t ++ [.release .info], none, false⟩
  else if (download env task o t).1 = false then
    ⟨(download env task o t).2.tree, opening env task o t ++ [.acquire .curl], none, true⟩
  else if downloadOK o = false then
    ⟨(removeTmp env task o t).2, closing env task o t ++ [.release .info], none, false⟩
  else
    match (fileSig env task o t).1 with
    | none =>
      ⟨(download env task o t).2.tree,
        signing env task o t ++ [.release .task, .release .info], none, false⟩
    | some sig =>
      if (moveTo env task o t sig).1 ≠ 0 then
        ⟨(moveTo env task o t sig).2,
          signing env task o t ++ [.release .task, .release .info], none, false⟩
      else callback env task o t sig

theorem ensureTmpDir_only : (ensureTmpDir env).Only (fun c ↦ ¬ c.IsRename) := by
  refine ⟨id, fun ok ↦ ?_⟩
  cases ok with
  | true => trivial
  | false => exact (mkdirsWithin_only _ _ _).bind (fun r ↦ trivial)

theorem tmpDir_onlyDirs : OnlyDirs t (tmpDir env o t).2 :=
  exec_onlyDirs env.cwd (ensureTmpDir env) (ensureTmpDir_only env) (o.tmpFaults, t)

section Steps

variable {env task o t}

theorem tmpFile_none (h : (tmpFile env task o t).1 = none) :
    (tmpFile env task o t).2 = (tmpDir env o t).2 := by
  unfold tmpFile at h ⊢
  split at h
  · rename_i hr
    rw [if_pos hr]
  · rename_i hr
    rw [if_neg hr]
    rcases openTrunc_cases env.cwd (tmpRealPath env task o) 0o644 [] (tmpDir env o t).2 with
      he | ⟨l, p, -, hl, -, -⟩
    · rw [he]
    · rw [hl] at h
      cases h

theorem tmpFile_some {l : Loc} (h : (tmpFile env task o t).1 = some l) :
    (tmpFile env task o t).2.entry env.cwd (tmpRealPath env task o) = some l ∧
      ∃ p, (tmpFile env task o t).2.node l = some (.file p []) := by
  unfold tmpFile at h ⊢
  split at h
  · cases h
  · rename_i hr
    rw [if_neg hr]
    rcases openTrunc_cases env.cwd (tmpRealPath env task o) 0o644 [] (tmpDir env o t).2 with
      he | ⟨l', p, he, hl, hn, hk⟩
    · rw [he] at h
      cases h
    · obtain rfl : l' = l := Option.some.inj (hl.symm.trans h)
      exact ⟨hk.slot he, p, hn⟩

theorem download_file {l : Loc} (h : (tmpFile env task o t).1 = some l) :
    (download env task o t).2.tree.entry env.cwd (tmpRealPath env task o) = some l ∧
      ∃ p b, (download env task o t).2.tree.node l = some (.file p b) ∧
        ((download env task o t).1 = true → b = pieces o.arrivals) := by
  obtain ⟨he, p, hn⟩ := tmpFile_some h
  obtain ⟨⟨b, hb, hpieces⟩, hframe⟩ := perform_file
    ⟨⟨(tmpFile env task o t).1, 0, 0⟩, (tmpFile env task o t).2⟩ o.arrivals h hn
  have hkeep : KeepsDirs (tmpFile env task o t).2 (download env task o t).2.tree := by
    intro m q hm
    have hml : m ≠ l := by
      rintro rfl
      simp [hn] at hm
    exact (hframe m hml).trans hm
  exact ⟨hkeep.slot he, p, b, hb, hpieces⟩

theorem download_none (h : (tmpFile env task o t).1 = none) :
    (download env task o t).2.tree = (tmpDir env o t).2 :=
  (perform_closed _ o.arrivals h).trans (tmpFile_none h)

theorem callback_tree (sig : UInt32 × UInt32) :
    (callback env task o t sig).tree = (moveTo env task o t sig).2 := by
  unfold callback
  split
  · rfl
  · split <;> rfl

theorem callback_posted {sig : UInt32 × UInt32} {i : Item}
    (h : (callback env task o t sig).posted = some i) : i = item env task o t sig := by
  unfold callback at h
  split at h
  · cases h
  · split at h <;> exact (Option.some.inj h).symm

theorem posted_cases {i : Item} (h : (threadWorker env task o t).posted = some i) :
    (download env task o t).1 = true ∧ ∃ sig, (fileSig env task o t).1 = some sig ∧
      (moveTo env task o t sig).1 = 0 ∧ i = item env task o t sig ∧
      (threadWorker env task o t).tree = (moveTo env task o t sig).2 := by
  unfold threadWorker at h ⊢
  split at h
  · cases h
  split at h
  · cases h
  split at h
  · cases h
  split at h
  · cases h
  rename_i hdir hcurl hdown hok
  refine ⟨by simpa using hdown, ?_⟩
  simp only [hdir, hcurl, hdown, hok]
  split at h
  · cases h
  rename_i sig hsig
  simp only [hsig]
  split at h
  · cases h
  rename_i hmove
  rw [if_neg hmove]
  exact ⟨sig, rfl, by simpa using hmove, callback_posted h, callback_tree sig⟩

end Steps

section Sample

/-- The digests of the empty text, of "a" and of "ab". -/
def sampleMd5 : Digest Bytes where
  init := []
  update ctx b := ctx ++ b
  final ctx :=
    if ctx = [0x61] then
      #v[0x0c, 0xc1, 0x75, 0xb9, 0xc0, 0xf1, 0xb6, 0xa8, 0x31, 0xc3, 0x99, 0xe2, 0x69, 0x77, 0x26, 0x61]
    else if ctx = [0x61, 0x62] then
      #v[0x18, 0x7e, 0xf4, 0x43, 0x61, 0x22, 0xd1, 0xcc, 0x2f, 0x40, 0xdc, 0x2b, 0x92, 0xf0, 0xeb, 0xa0]
    else
      #v[0xd4, 0x1d, 0x8c, 0xd9, 0x8f, 0x00, 0xb2, 0x04, 0xe9, 0x80, 0x09, 0x98, 0xec, 0xf8, 0x42, 0x7e]
  update_nil := List.append_nil
  update_append ctx b b' := (List.append_assoc ctx b b').symm

def sampleSetting : Setting Bytes :=
  ⟨[], "/s".toList, "10.0.0.1".toList, sampleMd5, fun _ ↦ some (false, .null)⟩

def sampleTask : HttpTask :=
  ⟨"1".toList, "http://a/x".toList, "mp3".toList, "t".toList, "http://a/y".toList⟩

def calm (arrivals : List Arrival) : Outside where
  name := "abcdefghijklmnop".toList
  tmpFaults := []
  openRefused := false
  curl := true
  arrivals := arrivals
  performed := true
  responseCode := 200
  removeRefused := false
  sigReads := ⟨false, []⟩
  moveFaults := []
  callbackCurl := true
  answers := []

def lengthLine (text : String) : Arrival := .header ⟨text.toList, []⟩

end Sample

end Calcsig.Server.Worker
