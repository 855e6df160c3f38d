import Calcsig.Foundation.Text

namespace Calcsig.Foundation.Documents

open Text

/-- A document. A number is kept as the text it is printed as. -/
inductive Json
  | null
  | bool : Bool → Json
  | number : Str → Json
  | string : Str → Json
  | array : List Json → Json
  | object : List (Str × Json) → Json

namespace Json

def isMember (key : Str) : Json → Option Bool
  | null => some false
  | object members => some (members.any (fun m ↦ m.1 = key))
  | _ => none

def member (key : Str) : Json → Option Json
  | null => some null
  | object members => some (((members.find? (fun m ↦ m.1 = key)).map Prod.snd).getD null)
  | _ => none

def asString : Json → Option Str
  | null => some []
  | bool b => some (if b then "true".toList else "false".toList)
  | number s | string s => some s
  | array _ | object _ => none

def isScalar : Json → Bool
  | array _ | object _ => false
  | _ => true

theorem asString_isSome (v : Json) : v.asString.isSome = v.isScalar := by
  cases v <;> rfl

end Json

/-- A reader says whether the text was a document and leaves a value behind
in either case. It throws where there is none. -/
abbrev Reader := Str → Option (Bool × Json)

end Calcsig.Foundation.Documents
