import Calcsig.Indexer.Fields
import Calcsig.RedisPool.Connection

namespace Calcsig.RedisPool.RoundTrip

open Function Foundation.Text Foundation.TypedStore Foundation.RedisServer
open Indexer.Model Indexer.Fields Connection

section Reading

variable {fields returnHash : List (Str × Str)} {key : Str}

def NulFree (entry : Str × Str) : Prop := nul ∉ entry.1 ∧ nul ∉ entry.2

theorem readHash_flat (fields returnHash : List (Str × Str)) (key : Str) :
    readHash true key returnHash ((flat fields).map .string) =
      fields.foldl (fun data entry ↦ emplace data (cString entry.1) (cString entry.2))
        returnHash := by
  induction fields generalizing returnHash key with
  | nil => rfl
  | cons entry fields ih => exact ih _ _

theorem nulFree_emplace (h : ∀ entry ∈ returnHash, NulFree entry) (field value : Str) :
    ∀ entry ∈ emplace returnHash (cString field) (cString value), NulFree entry := by
  unfold emplace
  split
  · exact h
  · intro entry hin
    rcases List.mem_append.mp hin with hin | hin
    · exact h entry hin
    · obtain rfl := List.mem_singleton.mp hin
      exact ⟨nul_notMem_cString field, nul_notMem_cString value⟩

theorem nulFree_read (h : ∀ entry ∈ returnHash, NulFree entry) :
    ∀ entry ∈ readHash true key returnHash ((flat fields).map .string), NulFree entry := by
  rw [readHash_flat]
  induction fields generalizing returnHash with
  | nil => exact h
  | cons entry fields ih => exact ih (nulFree_emplace h entry.1 entry.2)

theorem foldl_emplace (hfree : ∀ entry ∈ fields, NulFree entry)
    (hnodup : (returnHash.map Prod.fst ++ fields.map Prod.fst).Nodup) :
    fields.foldl (fun data entry ↦ emplace data (cString entry.1) (cString entry.2)) returnHash =
      returnHash ++ fields := by
  induction fields generalizing returnHash with
  | nil => exact (List.append_nil _).symm
  | cons entry fields ih =>
    obtain ⟨hfirst, hrest⟩ := List.forall_mem_cons.mp hfree
    have hfresh : entry.1 ∉ returnHash.map Prod.fst := by
      intro hin
      exact (List.nodup_append.mp hnodup).2.2 _ hin _ List.mem_cons_self rfl
    rw [List.foldl_cons, cString_of_nul_free hfirst.1, cString_of_nul_free hfirst.2,
      emplace_of_notMem _ hfresh, ih hrest (by simpa using hnodup)]
    simp

end Reading

section Hashes

variable {store stored after : Store Str Str} {keyHash : Str} {hashData : List (Str × Str)}
  {reply : Reply}

theorem not_error_of_true (h : (checkStatus (some reply)).value = some true) (text : Str) :
    reply ≠ .error text := by
  rintro rfl
  cases h

theorem stored_of_setHash (hnew : store keyHash = none)
    (hset : Serves store (setHash keyHash hashData).argv reply stored)
    (htrue : ((setHash keyHash hashData).interpret (some reply)).value = some true) :
    stored keyHash = some (.hash (assign (fun _ ↦ none) hashData)) := by
  have herror := not_error_of_true htrue
  cases hashData with
  | nil =>
    obtain ⟨-, text, he⟩ := hset.error_of_unreadable (parse_hmset_nil keyHash)
    exact (herror text he).elim
  | cons field fields =>
    rcases hset.cases (parse_hmset (List.cons_ne_nil field fields)) with
      ⟨v, happly, -, rfl⟩ | ⟨-, -, text, he⟩
    · rw [Request.key, hnew] at happly
      rw [Request.key, update_self, ← Option.some.inj happly]
    · exact (herror text he).elim

theorem value_of_getHashAll {h : Str → Option Str} (hhash : stored keyHash = some (.hash h))
    (hget : Serves stored (getHashAll keyHash).argv reply after) :
    ∃ fields, Lists h fields ∧ ((getHashAll keyHash).interpret (some reply)).value =
      some (readHash true [] [] ((flat fields).map .string)) := by
  rcases hget.cases (parse_hgetall keyHash) with ⟨v, -, hright, -⟩ | ⟨hfail, -⟩
  · rw [Request.key, hhash] at hright
    obtain ⟨fields, hlists, rfl⟩ := hright
    exact ⟨fields, hlists, rfl⟩
  · rw [Request.key, hhash] at hfail
    cases hfail

end Hashes

/-- A hash that has been stored under a new key comes back exactly as it was if
and only if no field and no value has a NUL character in it. -/
theorem hash_round_trip_iff (store stored after : Store Str Str) (keyHash : Str)
    (hashData : List (Str × Str)) (reply reply' : Reply)
    (hdistinct : (hashData.map Prod.fst).Nodup) (hnew : store keyHash = none)
    (hset : Serves store (setHash keyHash hashData).argv reply stored)
    (htrue : ((setHash keyHash hashData).interpret (some reply)).value = some true)
    (hget : Serves stored (getHashAll keyHash).argv reply' after) :
    (∃ returnHash, ((getHashAll keyHash).interpret (some reply')).value = some returnHash ∧
        returnHash.Perm hashData) ↔
      ∀ entry ∈ hashData, nul ∉ entry.1 ∧ nul ∉ entry.2 := by
  obtain ⟨fields, hlists, hvalue⟩ :=
    value_of_getHashAll (stored_of_setHash hnew hset htrue) hget
  have hperm := hlists.perm (lists_assign hdistinct)
  simp only [hvalue, Option.some.injEq, exists_eq_left']
  constructor
  · intro hsame entry hentry
    exact nulFree_read (by simp) entry (hsame.symm.subset hentry)
  · intro hfree
    have hfree' : ∀ entry ∈ fields, NulFree entry := fun entry hentry ↦
      hfree entry (hperm.subset hentry)
    rw [readHash_flat, foldl_emplace hfree' (by simpa using hlists.1)]
    exact hperm

section Sample

theorem serves_setHash {store : Store Str Str} {keyHash : Str} {hashData : List (Str × Str)}
    (hne : hashData ≠ []) (hnew : store keyHash = none) :
    Serves store (setHash keyHash hashData).argv (.status "OK".toList)
      (update store keyHash (some (.hash (assign (fun _ ↦ none) hashData)))) := by
  refine .executes (parse_hmset hne) ?_ rfl
  rw [Request.key, hnew]
  cases hashData with
  | nil => exact (hne rfl).elim
  | cons field fields => rfl

theorem serves_getHashAll (stored : Store Str Str) (keyHash : Str) (hashData : List (Str × Str))
    (hdistinct : (hashData.map Prod.fst).Nodup)
    (hhash : stored keyHash = some (.hash (assign (fun _ ↦ none) hashData))) :
    ∃ after, Serves stored (getHashAll keyHash).argv (.array ((flat hashData).map .string))
      after := by
  refine ⟨_, .executes (parse_hgetall keyHash) (v := stored keyHash) ?_ ?_⟩
  · rw [Request.key, hhash]
    rfl
  · rw [Request.key, hhash]
    exact ⟨hashData, lists_assign hdistinct, rfl⟩

def plainHash : List (Str × Str) := [("f".toList, "v w".toList)]

theorem hash_round_trip_iff_instance :
    ∃ returnHash, ((getHashAll "k".toList).interpret
        (some (.array ((flat plainHash).map .string)))).value = some returnHash ∧
      returnHash.Perm plainHash := by
  obtain ⟨after, hget⟩ := serves_getHashAll
    (update (fun _ ↦ none) "k".toList (some (.hash (assign (fun _ ↦ none) plainHash))))
    "k".toList plainHash (by decide) (update_self ..)
  exact (hash_round_trip_iff _ _ after "k".toList plainHash _ _ (by decide) rfl
    (serves_setHash (by decide) rfl) rfl hget).mpr (by decide)

def splitHash : List (Str × Str) := [("f".toList, ['a', nul, 'b'])]

/-- The value comes back cut at its NUL character. -/
theorem value_cut_at_nul :
    ∃ stored after, Serves (fun _ ↦ none) (setHash "k".toList splitHash).argv
        (.status "OK".toList) stored ∧
      ((setHash "k".toList splitHash).interpret (some (.status "OK".toList))).value = some true ∧
      Serves stored (getHashAll "k".toList).argv (.array ((flat splitHash).map .string)) after ∧
      ((getHashAll "k".toList).interpret (some (.array ((flat splitHash).map .string)))).value =
        some [("f".toList, "a".toList)] ∧
      ¬ [("f".toList, "a".toList)].Perm splitHash := by
  obtain ⟨after, hget⟩ := serves_getHashAll
    (update (fun _ ↦ none) "k".toList (some (.hash (assign (fun _ ↦ none) splitHash))))
    "k".toList splitHash (by decide) (update_self ..)
  exact ⟨_, after, serves_setHash (by decide) rfl, rfl, hget, rfl, by decide⟩

end Sample

section Strings

theorem value_of_getString {store after : Store Str Str} {key : Str} {reply : Reply}
    (hget : Serves store (getString key).argv reply after) :
    ((getString key).interpret (some reply)).value = some [] := by
  rcases hget.cases (parse_get key) with ⟨v, -, hright, -⟩ | ⟨-, -, text, rfl⟩
  · rcases right_get hright with rfl | ⟨value, rfl⟩ <;> rfl
  · rfl

/-- `setString` stores every text and says so, and however the server then
answers, `getString` does not return it. -/
theorem string_never_returned (store : Store Str Str) (key value : Str) (hvalue : value ≠ []) :
    (∃ reply stored, Serves store (setString key value).argv reply stored) ∧
    ∀ reply stored, Serves store (setString key value).argv reply stored →
      ((setString key value).interpret (some reply)).value = some true ∧
      stored key = some (.string value) ∧
      ∀ later reply' after, later key = stored key →
        Serves later (getString key).argv reply' after →
        ((getString key).interpret (some reply')).value ≠ some value := by
  refine ⟨⟨_, _, .executes (parse_set key value) rfl rfl⟩, fun reply stored hset ↦ ?_⟩
  rcases hset.cases (parse_set key value) with ⟨v, happly, hright, rfl⟩ | ⟨hfail, -⟩
  · obtain rfl := Option.some.inj happly
    rw [show reply = .status "OK".toList from hright]
    refine ⟨rfl, update_self .., fun later reply' after _ hget ↦ ?_⟩
    rw [value_of_getString hget]
    exact fun h ↦ hvalue (Option.some.inj h).symm
  · cases hfail

theorem string_never_returned_instance :
    ∃ reply stored, Serves (fun _ ↦ none) (setString "k".toList "v".toList).argv reply stored :=
  (string_never_returned (fun _ ↦ none) "k".toList "v".toList (by decide)).1

/-- The value "v" is stored, the server returns it, and the caller gets nothing. -/
theorem stored_string_missed :
    ∃ stored after, Serves (fun _ ↦ none) (setString "k".toList "v".toList).argv
        (.status "OK".toList) stored ∧
      ((setString "k".toList "v".toList).interpret (some (.status "OK".toList))).value =
        some true ∧
      Serves stored (getString "k".toList).argv (.string "v".toList) after ∧
      ((getString "k".toList).interpret (some (.string "v".toList))).value = some [] :=
  ⟨_, _, .executes (parse_set _ _) rfl rfl, rfl, .executes (parse_get _) rfl rfl, rfl⟩

end Strings

end Calcsig.RedisPool.RoundTrip
