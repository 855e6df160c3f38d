import Calcsig.Foundation.Text
import Calcsig.Foundation.TypedStore

namespace Calcsig.Foundation.RedisServer

open Function Text TypedStore

/-- A reply as the client library hands it on. A negative count gives a hollow
array: it counts as `2 ^ 64` elements less as many, and its elements are null. -/
inductive Reply
  | string (str : Str)
  | array (elements : List Reply)
  | hollow (missing : ℕ)
  | integer (n : ℤ)
  | nil
  | status (str : Str)
  | error (str : Str)

namespace Reply

/-- The text of a reply; a reply without one has a null pointer there. -/
def str : Reply → Option Str
  | string str | status str | error str => some str
  | array _ | hollow _ | integer _ | nil => none

def isError : Reply → Bool
  | error _ => true
  | _ => false

end Reply

inductive Request
  | hmset (key : Str) (fields : List (Str × Str))
  | hgetall (key : Str)
  | set (key value : Str)
  | get (key : Str)
  | smembers (key : Str)
  | sadd (key member : Str)
  | srem (key member : Str)

namespace Request

def key : Request → Str
  | hmset key _ | hgetall key | set key _ | get key | smembers key | sadd key _ | srem key _ => key

/-- What the key holds after the request; `none` where it is refused because the
key holds a value of another type. -/
def apply : Request → Option (Value Str) → Option (Option (Value Str))
  | hmset _ fields, v => (Op.hmset fields).apply v
  | sadd _ member, v => (Op.sadd member).apply v
  | srem _ member, v => (Op.srem member).apply v
  | set _ value, _ => some (some (.string value))
  | get _, none => some none
  | get _, some (.string value) => some (some (.string value))
  | hgetall _, none => some none
  | hgetall _, some (.hash h) => some (some (.hash h))
  | smembers _, none => some none
  | smembers _, some (.set members hne) => some (some (.set members hne))
  | _, _ => none

end Request

def pairs : List Str → Option (List (Str × Str))
  | [] => some []
  | [_] => none
  | field :: value :: rest => (pairs rest).map ((field, value) :: ·)

def flat (fields : List (Str × Str)) : List Str := fields.flatMap (fun field ↦ [field.1, field.2])

/-- The server's reading of the arguments it is sent, each with its length. -/
def parse : List Str → Option Request
  | name :: key :: args =>
    if name = "HMSET".toList then
      (pairs args).bind (fun fields ↦ if fields = [] then none else some (.hmset key fields))
    else
      match args with
      | [] =>
        if name = "HGETALL".toList then some (.hgetall key)
        else if name = "GET".toList then some (.get key)
        else if name = "SMEMBERS".toList then some (.smembers key)
        else none
      | [arg] =>
        if name = "SET".toList then some (.set key arg)
        else if name = "SADD".toList then some (.sadd key arg)
        else if name = "SREM".toList then some (.srem key arg)
        else none
      | _ => none
  | _ => none

def Lists (h : Str → Option Str) (fields : List (Str × Str)) : Prop :=
  (fields.map Prod.fst).Nodup ∧ ∀ field value, (field, value) ∈ fields ↔ h field = some value

/-- The replies to a request that is carried out on a key with the given value. -/
def Right : Request → Option (Value Str) → Reply → Prop
  | .hmset _ _, _, reply | .set _ _, _, reply => reply = .status "OK".toList
  | .sadd _ _, _, reply | .srem _ _, _, reply => ∃ n, reply = .integer n
  | .get _, some (.string value), reply => reply = .string value
  | .get _, _, reply => reply = .nil
  | .hgetall _, some (.hash h), reply =>
    ∃ fields, Lists h fields ∧ reply = .array ((flat fields).map .string)
  | .hgetall _, _, reply => reply = .array []
  | .smembers _, some (.set members _), reply =>
    ∃ listed : List Str, listed.Nodup ∧ listed.toFinset = members ∧ reply = .array (listed.map .string)
  | .smembers _, _, reply => reply = .array []

/-- The server answers what it is sent: it carries the request out, or it
refuses what it cannot read or carry out and leaves the store as it is. -/
inductive Serves (store : Store Str Str) : List Str → Reply → Store Str Str → Prop
  | executes {argv : List Str} {r : Request} {v : Option (Value Str)} {reply : Reply} :
      parse argv = some r → r.apply (store r.key) = some v → Right r (store r.key) reply →
      Serves store argv reply (update store r.key v)
  | unreadable {argv : List Str} (text : Str) : parse argv = none →
      Serves store argv (.error text) store
  | refuses {argv : List Str} {r : Request} (text : Str) : parse argv = some r →
      r.apply (store r.key) = none → Serves store argv (.error text) store

theorem right_get {key : Str} {v : Option (Value Str)} {reply : Reply}
    (h : Right (.get key) v reply) : reply = .nil ∨ ∃ value, reply = .string value := by
  match v, h with
  | none, h => exact .inl h
  | some (.string value), h => exact .inr ⟨value, h⟩
  | some (.hash _), h => exact .inl h
  | some (.set _ _), h => exact .inl h

section Parsing

theorem pairs_flat (fields : List (Str × Str)) : pairs (flat fields) = some fields := by
  induction fields with
  | nil => rfl
  | cons field fields ih =>
    change (pairs (flat fields)).map ((field.1, field.2) :: ·) = _
    rw [ih]
    rfl

theorem parse_hmset {key : Str} {fields : List (Str × Str)} (h : fields ≠ []) :
    parse ("HMSET".toList :: key :: flat fields) = some (.hmset key fields) := by
  simp only [parse, if_true, pairs_flat, Option.bind_some, if_neg h]

theorem parse_hmset_nil (key : Str) : parse ["HMSET".toList, key] = none := rfl

theorem parse_hgetall (key : Str) : parse ["HGETALL".toList, key] = some (.hgetall key) := by
  simp only [parse, show "HGETALL".toList ≠ "HMSET".toList by decide, if_false, if_true]

theorem parse_get (key : Str) : parse ["GET".toList, key] = some (.get key) := by
  simp only [parse, show "GET".toList ≠ "HMSET".toList by decide,
    show "GET".toList ≠ "HGETALL".toList by decide, if_false, if_true]

theorem parse_set (key value : Str) : parse ["SET".toList, key, value] = some (.set key value) := by
  simp only [parse, show "SET".toList ≠ "HMSET".toList by decide, if_false, if_true]

theorem parse_sadd (key member : Str) :
    parse ["SADD".toList, key, member] = some (.sadd key member) := by
  simp only [parse, show "SADD".toList ≠ "HMSET".toList by decide,
    show "SADD".toList ≠ "SET".toList by decide, if_false, if_true]

theorem parse_srem (key member : Str) :
    parse ["SREM".toList, key, member] = some (.srem key member) := by
  simp only [parse, show "SREM".toList ≠ "HMSET".toList by decide,
    show "SREM".toList ≠ "SET".toList by decide, show "SREM".toList ≠ "SADD".toList by decide,
    if_false, if_true]

end Parsing

section Serving

variable {store store' : Store Str Str} {argv : List Str} {reply : Reply}

theorem Serves.cases {r : Request} (h : Serves store argv reply store') (hr : parse argv = some r) :
    (∃ v, r.apply (store r.key) = some v ∧ Right r (store r.key) reply ∧
        store' = update store r.key v) ∨
      (r.apply (store r.key) = none ∧ store' = store ∧ ∃ text, reply = .error text) := by
  cases h with
  | executes hr' happly hright =>
    obtain rfl := Option.some.inj (hr.symm.trans hr')
    exact .inl ⟨_, happly, hright, rfl⟩
  | unreadable text hr' =>
    rw [hr] at hr'
    cases hr'
  | refuses text hr' hfail =>
    obtain rfl := Option.some.inj (hr.symm.trans hr')
    exact .inr ⟨hfail, rfl, text, rfl⟩

theorem Serves.error_of_unreadable (h : Serves store argv reply store') (hr : parse argv = none) :
    store' = store ∧ ∃ text, reply = .error text := by
  cases h with
  | unreadable text _ => exact ⟨rfl, text, rfl⟩
  | executes hr' => rw [hr] at hr'; cases hr'
  | refuses text hr' => rw [hr] at hr'; cases hr'

end Serving

section Listing

variable {h : Str → Option Str} {fields fields' : List (Str × Str)}

theorem lists_assign (hnodup : (fields.map Prod.fst).Nodup) :
    Lists (assign (fun _ ↦ none) fields) fields := by
  refine ⟨hnodup, fun field value ↦ ⟨assign_of_mem hnodup, fun hassign ↦ ?_⟩⟩
  by_cases hin : field ∈ fields.map Prod.fst
  · obtain ⟨⟨field', value'⟩, hmem, rfl⟩ := List.mem_map.mp hin
    obtain rfl := Option.some.inj ((assign_of_mem hnodup hmem).symm.trans hassign)
    exact hmem
  · rw [assign_of_notMem hin] at hassign
    cases hassign

theorem Lists.perm (hl : Lists h fields) (hl' : Lists h fields') : fields.Perm fields' := by
  apply (List.perm_ext_iff_of_nodup hl.1.of_map hl'.1.of_map).mpr
  rintro ⟨field, value⟩
  rw [hl.2, hl'.2]

end Listing

end Calcsig.Foundation.RedisServer
