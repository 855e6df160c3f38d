import Calcsig.Foundation.RedisServer
import Calcsig.Indexer.Model
import Calcsig.Utils.SigPath

namespace Calcsig.RedisPool.Connection

open Foundation.Text Foundation.RedisServer Utils.SigPath Indexer.Model

/-- What a call comes to: no value where it reads through a null pointer, and
whether it prints a null text. -/
structure Outcome (α : Type) where
  value : Option α
  printsNull : Bool

namespace Outcome

variable {α : Type}

def crash : Outcome α := ⟨none, false⟩

def returns (a : α) : Outcome α := ⟨some a, false⟩

def printing (str : Option Str) (a : α) : Outcome α := ⟨some a, str.isNone⟩

end Outcome

/-- A member function: the arguments it sends with their lengths, and what it
makes of the reply, which is null where there was none. -/
structure Call (α : Type) where
  argv : List Str
  interpret : Option Reply → Outcome α

def isOK : Reply → Bool
  | .status str => lower (cString str) = "ok".toList
  | _ => false

/-- The loop over the elements; fields stand at even places, values at odd ones,
and each is read as a C string. -/
def readHash : Bool → Str → List (Str × Str) → List Reply → List (Str × Str)
  | _, _, returnHash, [] => returnHash
  | true, _, returnHash, .string str :: rest => readHash false (cString str) returnHash rest
  | false, key, returnHash, .string str :: rest =>
    readHash true key (emplace returnHash key (cString str)) rest
  | even, key, returnHash, _ :: rest => readHash (!even) key returnHash rest

def getHashAll (keyHash : Str) : Call (List (Str × Str)) where
  argv := ["HGETALL".toList, keyHash]
  interpret
    | none => .crash
    | some (.array elements) => .returns (readHash true [] [] elements)
    | some (.hollow _) => .crash
    | some (.error str) => .printing (some str) []
    | some _ => .returns []

def checkStatus : Option Reply → Outcome Bool
  | none => .crash
  | some reply => if isOK reply then .returns true else .printing reply.str false

def setHash (keyHash : Str) (hashData : List (Str × Str)) : Call Bool where
  argv := "HMSET".toList :: keyHash :: flat hashData
  interpret := checkStatus

def setString (key value : Str) : Call Bool where
  argv := ["SET".toList, key, value]
  interpret := checkStatus

def getString (key : Str) : Call Str where
  argv := ["GET".toList, key]
  interpret
    | none => .crash
    | some (.status str) => .returns (if isOK (.status str) then cString str else [])
    | some .nil => .returns []
    | some (.error str) => .printing (some str) []
    | some _ => .returns []

def readSet (elements : List Reply) : List Str :=
  elements.filterMap (fun
    | .string str => some (cString str)
    | _ => none)

def getSet (key : Str) : Call (List Str) where
  argv := ["SMEMBERS".toList, key]
  interpret
    | none => .crash
    | some (.array elements) => .returns (readSet elements)
    | some (.hollow _) => .crash
    | some (.error str) => .printing (some str) []
    | some _ => .returns []

def checkMember : Option Reply → Outcome Bool
  | none => .crash
  | some (.error str) => .printing (some str) false
  | some reply => .returns (isOK reply)

def setAdd (key value : Str) : Call Bool where
  argv := ["SADD".toList, key, value]
  interpret := checkMember

def setDel (key value : Str) : Call Bool where
  argv := ["SREM".toList, key, value]
  interpret := checkMember

section Replies

theorem isOK_ok : isOK (.status "OK".toList) = true := by decide

theorem checkStatus_value (reply : Reply) :
    (checkStatus (some reply)).value = some (isOK reply) := by
  cases h : isOK reply <;> simp [checkStatus, h, Outcome.returns, Outcome.printing]

theorem checkMember_value (reply : Reply) :
    (checkMember (some reply)).value = some (isOK reply) := by
  cases reply <;> rfl

end Replies

end Calcsig.RedisPool.Connection
