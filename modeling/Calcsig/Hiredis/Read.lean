import Calcsig.Foundation.Text

namespace Calcsig.Hiredis.Read

open Foundation.Text

inductive ReplyType
  | string | array | integer | nil | status | error
  deriving DecidableEq

/-- A reply object. The elements of an array are empty until they are read. -/
inductive Object
  | text (type : ReplyType) (str : Str)
  | integer (n : ℤ)
  | nil
  | array (elements : ℤ) (element : List (Option Object))

structure Task where
  type : Option ReplyType
  elements : ℤ
  idx : ℤ

/-- What stops a reader: a protocol error with its text, or the end of the
process, by a failed assertion or a write through a null pointer. -/
inductive Stop
  | protocol (errstr : Str)
  | crash
  deriving DecidableEq

/-- The tasks from the current one down to the root, and the reply as far as it
is built. The parent of a task is the one below it. -/
structure Tasks where
  rstack : List Task
  reply : Option Object

/-- The end of a pass over one item: it was read, more bytes are needed, or the
reader stops. -/
inductive Item
  | ok (tasks : Tasks) (unread : Str)
  | more (tasks : Tasks) (unread : Str)
  | stop (s : Stop)

def Item.ofOption (unread : Str) : Option Tasks → Item
  | some tasks => .ok tasks unread
  | none => .stop .crash

section Bytes

def asInt (n : ℤ) : ℤ := n.bmod 4294967296

def asLong (n : ℤ) : ℤ := n.bmod 18446744073709551616

def seekNewline : Str → Option ℕ
  | '\r' :: '\n' :: _ => some 0
  | _ :: s => (seekNewline s).map (· + 1)
  | [] => none

/-- The digits up to the carriage return, which may be the one that ends the
line. -/
def readDigits : ℤ → Str → Option ℤ
  | v, [] => some v
  | v, c :: s =>
    if c = '\r' then some v
    else if c.isDigit then readDigits (v * 10 + (c.toNat - '0'.toNat : ℕ)) s
    else none

def readLongLong : Str → ℤ
  | '-' :: s => (readDigits 0 s).elim (-1) (fun v ↦ asLong (-v))
  | '+' :: s => (readDigits 0 s).elim (-1) asLong
  | s => (readDigits 0 s).elim (-1) asLong

def readLine (s : Str) : Option (Str × Str) :=
  (seekNewline s).map (fun n ↦ (s.take n, s.drop (n + 2)))

def chrtos (byte : Char) : Str :=
  if byte = '\\' ∨ byte = '"' then ['"', '\\', byte, '"']
  else if byte = '\n' then "\"\\n\"".toList
  else if byte = '\r' then "\"\\r\"".toList
  else if byte = '\t' then "\"\\t\"".toList
  else if byte = Char.ofNat 7 then "\"\\a\"".toList
  else if byte = Char.ofNat 8 then "\"\\b\"".toList
  else if 32 ≤ byte.toNat ∧ byte.toNat < 127 then ['"', byte, '"']
  else ['"', '\\', 'x', Nat.digitChar (byte.toNat / 16), Nat.digitChar (byte.toNat % 16), '"']

def protocolByte (byte : Char) : Stop :=
  .protocol ("Protocol error, got ".toList ++ chrtos byte ++ " as reply type byte".toList)

def tooDeep : Stop :=
  .protocol "No support for nested multi bulk replies with depth > 7".toList

end Bytes

section Stack

def slots : List Task → List ℕ
  | cur :: prv :: below => slots (prv :: below) ++ [cur.idx.toNat]
  | _ => []

/-- Hangs an object in at its slot; the root itself has no slot. There is no
result where the slot does not exist. -/
def attach : List ℕ → Object → Option Object → Option Object
  | [], obj, _ => some obj
  | i :: path, obj, some (.array n element) =>
    (element[i]?.bind (attach path obj)).map (fun child ↦ .array n (element.set i (some child)))
  | _ :: _, _, _ => none

def moveToNextTask : List Task → Option (List Task)
  | cur :: prv :: below =>
    if prv.type ≠ some .array then none
    else if cur.idx = prv.elements - 1 then moveToNextTask (prv :: below)
    else if cur.idx < prv.elements then some (⟨none, -1, cur.idx + 1⟩ :: prv :: below)
    else none
  | _ => some []

def Tasks.close (tasks : Tasks) (obj : Object) : Option Tasks :=
  (attach (slots tasks.rstack) obj tasks.reply).bind (fun reply ↦
    (moveToNextTask tasks.rstack).map (fun rstack ↦ ⟨rstack, some reply⟩))

def emptyArray (elements : ℤ) : Object := .array elements (List.replicate elements.toNat none)

def Tasks.enter (tasks : Tasks) (elements : ℤ) : Option Tasks :=
  match tasks.rstack with
  | [] => none
  | cur :: below =>
    (attach (slots (cur :: below)) (emptyArray elements) tasks.reply).map (fun reply ↦
      ⟨⟨none, -1, 0⟩ :: { cur with elements := elements } :: below, some reply⟩)

def Tasks.setType (tasks : Tasks) (type : ReplyType) : Tasks :=
  match tasks.rstack with
  | [] => tasks
  | cur :: below => { tasks with rstack := { cur with type := some type } :: below }

end Stack

section Items

def processLineItem (tasks : Tasks) (type : ReplyType) (unread : Str) : Item :=
  match readLine unread with
  | none => .more tasks unread
  | some (line, rest) =>
    .ofOption rest (tasks.close (if type = .integer then .integer (readLongLong line) else .text type line))

/-- A string with its length in front. The two bytes behind it are skipped
unseen. -/
def processBulkItem (tasks : Tasks) (unread : Str) : Item :=
  match readLine unread with
  | none => .more tasks unread
  | some (line, rest) =>
    let len := readLongLong line
    if len < 0 then .ofOption rest (tasks.close .nil)
    else if len.toNat + 2 ≤ rest.length then
      .ofOption (rest.drop (len.toNat + 2)) (tasks.close (.text .string (rest.take len.toNat)))
    else .more tasks unread

def processMultiBulkItem (tasks : Tasks) (unread : Str) : Item :=
  if tasks.rstack.length = 9 then .stop tooDeep
  else
    match readLine unread with
    | none => .more tasks unread
    | some (line, rest) =>
      let elements := readLongLong line
      .ofOption rest
        (if elements = -1 then tasks.close .nil
        else if 0 < elements then tasks.enter (asInt elements)
        else tasks.close (emptyArray (asInt elements)))

def processTyped (tasks : Tasks) (type : ReplyType) (unread : Str) : Item :=
  match type with
  | .error | .status | .integer => processLineItem tasks type unread
  | .string => processBulkItem tasks unread
  | .array => processMultiBulkItem tasks unread
  | .nil => .stop .crash

def typeOfByte : Char → Option ReplyType
  | '-' => some .error
  | '+' => some .status
  | ':' => some .integer
  | '$' => some .string
  | '*' => some .array
  | _ => none

/-- One item, or the part of it that has come in: the type that was read stays
with the task. -/
def processItem (tasks : Tasks) (unread : Str) : Item :=
  match tasks.rstack.head?.bind Task.type, unread with
  | some type, _ => processTyped tasks type unread
  | none, [] => .more tasks []
  | none, byte :: rest =>
    match typeOfByte byte with
    | some type => processTyped (tasks.setType type) type rest
    | none => .stop (protocolByte byte)

/-- The items of one reply. Each takes a byte at least, so that the bytes at hand
bound the passes. -/
def processItems : ℕ → Tasks → Str → Item
  | 0, tasks, unread => .more tasks unread
  | n + 1, tasks, unread =>
    if tasks.rstack = [] then .ok tasks unread
    else
      match processItem tasks unread with
      | .ok tasks' unread' => processItems n tasks' unread'
      | .more tasks' unread' => .more tasks' unread'
      | .stop s => .stop s

end Items

/-- The reader, with the whole buffer and the place up to which it is read. -/
structure Reader where
  err : Option Stop
  buf : Str
  pos : ℕ
  tasks : Tasks

namespace Reader

def create : Reader := ⟨none, [], 0, ⟨[], none⟩⟩

def unread (r : Reader) : Str := r.buf.drop r.pos

def setError (s : Stop) : Reader := ⟨some s, [], 0, ⟨[], none⟩⟩

def feed (r : Reader) (bytes : Str) : Reader :=
  if r.err.isSome then r else { r with buf := r.buf ++ bytes }

def discard (r : Reader) : Reader :=
  if 1024 ≤ r.pos then { r with buf := r.buf.drop r.pos, pos := 0 } else r

def rootTask : Task := ⟨none, -1, -1⟩

def resumed (tasks : Tasks) : Tasks :=
  if tasks.rstack = [] then { tasks with rstack := [rootTask] } else tasks

def advanced (r : Reader) (tasks : Tasks) (rest : Str) : Reader :=
  discard { r with pos := r.buf.length - rest.length, tasks := tasks }

/-- The next reply, if all of it has come in. No result is the error return. -/
def getReply (r : Reader) : Option (Option Object) × Reader :=
  if r.err.isSome then (none, r)
  else if r.buf = [] then (some none, r)
  else
    match processItems (r.unread.length + 1) (resumed r.tasks) r.unread with
    | .stop s => (none, setError s)
    | .ok tasks rest => (some tasks.reply, r.advanced ⟨tasks.rstack, none⟩ rest)
    | .more tasks rest => (some none, r.advanced tasks rest)

end Reader

end Calcsig.Hiredis.Read
