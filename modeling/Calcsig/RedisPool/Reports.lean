import Calcsig.RedisPool.Connection

namespace Calcsig.RedisPool.Reports

open Function Foundation.Text Foundation.TypedStore Foundation.RedisServer Connection

/-- The calls that write. -/
inductive Writing
  | setHash (keyHash : Str) (hashData : List (Str × Str))
  | setString (key value : Str)
  | setAdd (key value : Str)
  | setDel (key value : Str)

namespace Writing

def call : Writing → Call Bool
  | setHash keyHash hashData => Connection.setHash keyHash hashData
  | setString key value => Connection.setString key value
  | setAdd key value => Connection.setAdd key value
  | setDel key value => Connection.setDel key value

def key : Writing → Str
  | setHash key _ | setString key _ | setAdd key _ | setDel key _ => key

end Writing

/-- Whatever the server answers, the call returns true exactly when its command
was carried out, and false only with what is stored under the key unchanged.
The server may also refuse a command for reasons of its own. -/
def Truthful (w : Writing) (store : Store Str Str) : Prop :=
  ∀ reply stored, Serves store w.call.argv reply stored ∨
      (reply.isError = true ∧ stored = store) →
    ∃ b, (w.call.interpret (some reply)).value = some b ∧ (b = true ↔ reply.isError = false) ∧
      (b = false → stored w.key = store w.key)

theorem isOK_of_error {reply : Reply} (h : reply.isError = true) : isOK reply = false := by
  cases reply with
  | error str => rfl
  | _ => cases h

theorem value_of_call (w : Writing) (reply : Reply) :
    (w.call.interpret (some reply)).value = some (isOK reply) := by
  cases w with
  | setHash keyHash hashData => exact checkStatus_value reply
  | setString key value => exact checkStatus_value reply
  | setAdd key value => exact checkMember_value reply
  | setDel key value => exact checkMember_value reply

theorem truthful_of_status {w : Writing} {store : Store Str Str}
    (h : ∀ reply stored, Serves store w.call.argv reply stored →
      reply = .status "OK".toList ∨ reply.isError = true ∧ stored = store) :
    Truthful w store := by
  intro reply stored hanswer
  refine ⟨isOK reply, value_of_call w reply, ?_⟩
  have hcases : reply = .status "OK".toList ∨ reply.isError = true ∧ stored = store :=
    hanswer.elim (h reply stored) .inr
  rcases hcases with rfl | ⟨herror, rfl⟩
  · exact ⟨iff_of_true isOK_ok rfl, fun hno ↦ by rw [isOK_ok] at hno; cases hno⟩
  · rw [isOK_of_error herror, herror]
    exact ⟨iff_of_false nofun nofun, fun _ ↦ rfl⟩

theorem serves_status {store stored : Store Str Str} {argv : List Str} {r : Request} {reply : Reply}
    (hr : parse argv = some r)
    (hright : ∀ v, Right r v reply → reply = .status "OK".toList)
    (h : Serves store argv reply stored) :
    reply = .status "OK".toList ∨ reply.isError = true ∧ stored = store := by
  rcases h.cases hr with ⟨v, -, hv, -⟩ | ⟨-, rfl, text, rfl⟩
  · exact .inl (hright _ hv)
  · exact .inr ⟨rfl, rfl⟩

theorem truthful_setHash (keyHash : Str) (hashData : List (Str × Str)) (store : Store Str Str) :
    Truthful (.setHash keyHash hashData) store := by
  apply truthful_of_status
  intro reply stored h
  cases hashData with
  | nil =>
    obtain ⟨rfl, text, rfl⟩ := h.error_of_unreadable (parse_hmset_nil keyHash)
    exact .inr ⟨rfl, rfl⟩
  | cons field fields =>
    exact serves_status (parse_hmset (List.cons_ne_nil field fields)) (fun _ hv ↦ hv) h

theorem truthful_setString (key value : Str) (store : Store Str Str) :
    Truthful (.setString key value) store := by
  apply truthful_of_status
  intro reply stored h
  exact serves_status (parse_set key value) (fun _ hv ↦ hv) h

theorem truthful_member_iff (w : Writing) (r : Request) (store : Store Str Str)
    (hr : parse w.call.argv = some r) (hright : ∀ v n, Right r v (.integer n)) :
    Truthful w store ↔ r.apply (store r.key) = none := by
  constructor
  · intro h
    cases happly : r.apply (store r.key) with
    | none => rfl
    | some v =>
      obtain ⟨b, hb, hiff, -⟩ := h (.integer 0) _ (.inl (.executes hr happly (hright _ 0)))
      rw [value_of_call] at hb
      cases hb
      cases hiff.mpr rfl
  · intro happly
    apply truthful_of_status
    intro reply stored h
    rcases h.cases hr with ⟨v, hv, -⟩ | ⟨-, rfl, text, rfl⟩
    · rw [happly] at hv
      cases hv
    · exact .inr ⟨rfl, rfl⟩

/-- `setHash` and `setString` always report truthfully; `setAdd` and `setDel`
only where the key holds a value of another type. -/
theorem truthful_iff (w : Writing) (store : Store Str Str) :
    Truthful w store ↔
      match w with
      | .setHash _ _ | .setString _ _ => True
      | .setAdd key value => (Op.sadd value).apply (store key) = none
      | .setDel key value => (Op.srem value).apply (store key) = none := by
  cases w with
  | setHash keyHash hashData => exact iff_of_true (truthful_setHash keyHash hashData store) trivial
  | setString key value => exact iff_of_true (truthful_setString key value store) trivial
  | setAdd key value =>
    exact truthful_member_iff (.setAdd key value) (.sadd key value) store (parse_sadd key value)
      (fun _ n ↦ ⟨n, rfl⟩)
  | setDel key value =>
    exact truthful_member_iff (.setDel key value) (.srem key value) store (parse_srem key value)
      (fun _ n ↦ ⟨n, rfl⟩)

/-- A member is added to a new set, and the call says that it was not. -/
theorem added_member_denied :
    ∃ stored, Serves (fun _ ↦ none) (Writing.setAdd "s".toList "x".toList).call.argv
        (.integer 1) stored ∧
      ((Writing.setAdd "s".toList "x".toList).call.interpret (some (.integer 1))).value =
        some false ∧
      stored "s".toList = ofSet {"x".toList} :=
  ⟨_, .executes (parse_sadd _ _) rfl ⟨1, rfl⟩, rfl, update_self ..⟩

section Pointers

/-- The call neither reads through a null pointer nor prints a null text. -/
def Sound {α : Type} (outcome : Outcome α) : Prop :=
  outcome.value.isSome = true ∧ outcome.printsNull = false

namespace Wrapper

end Wrapper

end Pointers

end Calcsig.RedisPool.Reports
