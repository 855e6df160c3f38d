import Calcsig.Hiredis.Commands

namespace Calcsig.Hiredis.Exchange

open Foundation.Text Foundation.Incremental Foundation.RedisServer Read Chunks Replies Commands

inductive Failure
  | io
  | timeout
  | eof
  | reader (s : Stop)

structure Context where
  err : Option Failure
  obuf : Str
  reader : Reader

/-- The far end of the connection: the state that commands act on, the bytes that
are on their way to the client, and the commands as far as they have come in. -/
structure Peer (σ : Type) where
  state : σ
  outbox : Str
  tasks : Tasks
  unread : Str

structure World (σ : Type) where
  context : Context
  peer : Peer σ

/-- How a system call on the socket ends: with bytes moved, with an interruption
after which it is made again, or with one of the errors. -/
inductive Sys
  | done (n : ℕ)
  | again
  | timeout
  | closed
  | failed

/-- How a call for a reply ends. It is blocked where the system calls run out. -/
inductive Result
  | reply (obj : Object)
  | null
  | blocked

section Peer

variable {σ : Type} (answer : σ → List Str → Reply × σ)

def commandOf : Object → Option (List Str)
  | .array _ element => element.mapM (fun
    | some (.text .string str) => some str
    | _ => none)
  | _ => none

/-- A command without arguments is skipped. -/
def serve (served : σ × Str) (obj : Object) : σ × Str :=
  match commandOf obj with
  | some (name :: args) =>
    ((answer served.1 (name :: args)).2, served.2 ++ encode (answer served.1 (name :: args)).1)
  | some [] | none => served

/-- The far end reads the protocol as the client does, and answers every command as
soon as all of it is there. -/
def Peer.accept (peer : Peer σ) (bytes : Str) : Peer σ :=
  let read := machine.consume peer.tasks (peer.unread ++ bytes)
  let served := read.1.foldl (serve answer) (peer.state, peer.outbox)
  match read.2 with
  | .ok (tasks, unread) => ⟨served.1, served.2, tasks, unread⟩
  | .error _ => ⟨served.1, served.2, peer.tasks, peer.unread⟩

end Peer

section Calls

variable {σ : Type} (answer : σ → List Str → Reply × σ)

def World.fail (w : World σ) (failure : Failure) : World σ :=
  { w with context := { w.context with err := some failure } }

def redisBufferWrite (e : Sys) (w : World σ) : Bool × World σ :=
  if w.context.err.isSome then (false, w)
  else if w.context.obuf = [] then (true, w)
  else
    match e with
    | .done n =>
      (true, ⟨{ w.context with obuf := w.context.obuf.drop n },
        w.peer.accept answer (w.context.obuf.take n)⟩)
    | .again => (true, w)
    | .timeout => (false, w.fail .timeout)
    | .closed | .failed => (false, w.fail .io)

/-- One read of at most sixteen kilobytes. While nothing has come in it does not
return with any. -/
def redisBufferRead (e : Sys) (w : World σ) : Bool × World σ :=
  if w.context.err.isSome then (false, w)
  else
    match e with
    | .done n =>
      let bytes := w.peer.outbox.take (min (n + 1) 16384)
      (true, ⟨{ w.context with reader := w.context.reader.feed bytes },
        { w.peer with outbox := w.peer.outbox.drop (min (n + 1) 16384) }⟩)
    | .again => (true, w)
    | .timeout => (false, w.fail .timeout)
    | .closed => (false, w.fail .eof)
    | .failed => (false, w.fail .io)

def redisGetReplyFromReader (w : World σ) : Option (Option Object) × World σ :=
  match w.context.reader.getReply with
  | (some reply, r) => (some reply, { w with context := { w.context with reader := r } })
  | (none, r) =>
    (none, { w with context := ⟨r.err.map .reader, w.context.obuf, r⟩ })

/-- Writes until everything is written, unless it fails or blocks. A system call is
made only where there is something to write. -/
def flush : List Sys → World σ → Option Result × World σ × List Sys
  | [], w =>
    if w.context.err.isSome then (some .null, w, [])
    else if w.context.obuf = [] then (none, w, [])
    else (some .blocked, w, [])
  | e :: script, w =>
    if w.context.err.isSome then (some .null, w, e :: script)
    else if w.context.obuf = [] then (none, w, e :: script)
    else
      match redisBufferWrite answer e w with
      | (true, w') => flush script w'
      | (false, w') => (some .null, w', script)

def readReply : List Sys → World σ → Result × World σ × List Sys
  | [], w => (if w.context.err.isSome then .null else .blocked, w, [])
  | e :: script, w =>
    match redisBufferRead e w with
    | (false, w') => (.null, w', script)
    | (true, w') =>
      match redisGetReplyFromReader w' with
      | (none, w'') => (.null, w'', script)
      | (some (some obj), w'') => (.reply obj, w'', script)
      | (some none, w'') => readReply script w''

def redisGetReply (script : List Sys) (w : World σ) : Result × World σ × List Sys :=
  match redisGetReplyFromReader w with
  | (none, w') => (.null, w', script)
  | (some (some obj), w') => (.reply obj, w', script)
  | (some none, w') =>
    match flush answer script w' with
    | (some result, w'', script') => (result, w'', script')
    | (none, w'', script') => readReply script' w''

def redisCommandArgv (argv : List Str) (script : List Sys) (w : World σ) :
    Result × World σ × List Sys :=
  match redisFormatSdsCommandArgv argv with
  | none => (.null, w, script)
  | some cmd =>
    redisGetReply answer script { w with context := { w.context with obuf := w.context.obuf ++ cmd } }

def converse : List (List Str) → List Sys → World σ → List Result × World σ
  | [], _, w => ([], w)
  | argv :: commands, script, w =>
    match redisCommandArgv answer argv script w with
    | (.blocked, w', _) => ([.blocked], w')
    | (result, w', script') =>
      let later := converse commands script' w'
      (result :: later.1, later.2)

def World.fresh (s : σ) : World σ := ⟨⟨none, [], .create⟩, ⟨s, [], root, []⟩⟩

end Calls

end Calcsig.Hiredis.Exchange
