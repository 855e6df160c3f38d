import Calcsig.Indexer.Idempotence
import Calcsig.RedisPool.Clients

namespace Calcsig.Indexer.Interrupted

open Function Foundation.Text Foundation.Runs Foundation.TypedStore Foundation.RedisServer
open Hiredis.Replies Hiredis.Commands Hiredis.Exchange Hiredis.Conversation
open RedisPool.Connection RedisPool.Clients Model Idempotence

/-- The commands of a pass over one connection. What a call returns makes no
difference to the indexer. -/
def pass : List (Command Str Str) → Client Unit
  | [] => .done ()
  | c :: cs => .call (callOf c) (fun _ ↦ pass cs)

def argvs (cs : List (Command Str Str)) : List (List Str) := cs.map (fun c ↦ (callOf c).argv)

def Obeys (answer : Store Str Str → List Str → Reply × Store Str Str) (cs : List (Command Str Str)) :
    Prop :=
  ∀ store, ∀ argv ∈ argvs cs, Serves store argv (answer store argv).1 (answer store argv).2

section Passes

variable {answer : Store Str Str → List Str → Reply × Store Str Str} {cs : List (Command Str Str)}
  {store store' : Store Str Str}

theorem proper_pass (hreply : ∀ store argv, Sendable 8 (answer store argv).1)
    (hfits : ∀ argv ∈ argvs cs, Fitting argv) (store : Store Str Str) :
    (pass cs).Proper answer store := by
  induction cs generalizing store with
  | nil => trivial
  | cons c cs ih =>
    obtain ⟨hc, hcs⟩ := List.forall_mem_cons.mp hfits
    exact ⟨hc, hreply store _, callOf_null c, fun _ _ ↦ ih hcs _⟩

theorem Obeys.head {c : Command Str Str} (h : Obeys answer (c :: cs)) (store : Store Str Str) :
    (answer store (callOf c).argv).2 = perform store c :=
  perform_of_serves c (h store _ List.mem_cons_self)

theorem Obeys.tail {c : Command Str Str} (h : Obeys answer (c :: cs)) : Obeys answer cs :=
  fun store argv hargv ↦ h store argv (List.mem_cons_of_mem _ hargv)

theorem against_pass (h : Obeys answer cs) :
    (pass cs).against answer store = (some (), run perform store cs) := by
  induction cs generalizing store with
  | nil => rfl
  | cons c cs ih =>
    rw [pass, Client.against, callOf_value, h.head]
    exact ih h.tail

theorem passes_pass (h : Obeys answer cs) (hpasses : Client.Passes answer (pass cs) store store') :
    ∃ before rest, cs = before ++ rest ∧ store' = run perform store before := by
  induction cs generalizing store with
  | nil =>
    cases hpasses
    exact ⟨[], [], rfl, rfl⟩
  | cons c cs ih =>
    cases hpasses with
    | here => exact ⟨[], c :: cs, rfl, rfl⟩
    | called => exact ⟨[c], cs, rfl, h.head store⟩
    | later hvalue hlater =>
      rw [h.head] at hlater
      obtain ⟨before, rest, rfl, hstore'⟩ := ih h.tail hlater
      exact ⟨c :: before, rest, rfl, hstore'⟩

end Passes

/-- A pass: what it finds in its variables, and what its system calls do. -/
structure Attempt where
  prior : ℕ → Prior
  script : List Sys

/-- Passes one after the other, each by a process of its own with a connection of
its own. -/
def storeAfter (answer : Store Str Str → List Str → Reply × Store Str Str)
    (commands : (ℕ → Prior) → List (Command Str Str)) (store : Store Str Str)
    (attempts : List Attempt) : Store Str Str :=
  attempts.foldl (fun store attempt ↦
    ((pass (commands attempt.prior)).overWire answer attempt.script (World.fresh store)).2.peer.state) store

theorem run_storeAfter {answer : Store Str Str → List Str → Reply × Store Str Str}
    {commands : (ℕ → Prior) → List (Command Str Str)} {cs : List (Command Str Str)}
    (hsame : ∀ prior, commands prior = cs) (hreply : ∀ store argv, Sendable 8 (answer store argv).1)
    (hfits : ∀ argv ∈ argvs cs, Fitting argv) (hobeys : Obeys answer cs)
    (hstable : ∀ key, Stable (opsOn key cs)) (store : Store Str Str) (attempts : List Attempt) :
    run perform (storeAfter answer commands store attempts) cs = run perform store cs := by
  induction attempts generalizing store with
  | nil => rfl
  | cons attempt attempts ih =>
    rw [storeAfter, List.foldl_cons, ← storeAfter, ih, hsame]
    have hpasses := (over_spec (proper_pass hreply hfits store) (clean_fresh store) attempt.script).1
    obtain ⟨before, rest, rfl, hstate⟩ := passes_pass hobeys hpasses
    rw [hstate]
    exact run_perform_resume hstable store

/-- An indexing pass that is broken off anywhere, by the loss of the connection or
the end of the process, and however often, does no lasting harm: the next pass over
the same rows that comes to its end leaves the store as one undisturbed pass would
have. It comes to its end if its system calls go on moving bytes. -/
theorem interrupted_passes_recover (config : Config) (db : Database) (type : ℕ) (rows : List Row)
    (hrows : ∀ row ∈ rows, Determined row) (prior : ℕ → Prior)
    (answer : Store Str Str → List Str → Reply × Store Str Str)
    (hreply : ∀ store argv, Sendable 8 (answer store argv).1)
    (hobeys : Obeys answer (processRows config db type prior rows))
    (hfits : ∀ argv ∈ argvs (processRows config db type prior rows), Fitting argv)
    (store : Store Str Str) (attempts : List Attempt) (last : List Sys) :
    let cs := processRows config db type prior rows
    let broken := storeAfter answer (fun prior ↦ processRows config db type prior rows) store attempts
    let ending := (pass cs).overWire answer last (World.fresh broken)
    (Productive last → (pass cs).bytes answer broken ≤ last.length → ending.1 = .value ()) ∧
      (ending.1 = .value () → ending.2.peer.state = run perform store cs) := by
  intro cs broken ending
  have hproper : (pass cs).Proper answer broken := proper_pass hreply hfits broken
  refine ⟨fun hlast henough ↦ ?_, fun hend ↦ ?_⟩
  · exact over_completes hproper (clean_fresh broken) hlast henough (against_pass hobeys)
  · have hagainst := (over_spec hproper (clean_fresh broken) last).2 () hend
    rw [against_pass hobeys] at hagainst
    rw [← (Prod.mk.inj hagainst).2]
    exact run_storeAfter (fun _ ↦ processRows_congr hrows _ _) hreply hfits hobeys (stable_writes type _)
      store attempts

section Sample

def acknowledgement : Request → Reply
  | .hmset _ _ | .set _ _ => .status "OK".toList
  | _ => .integer 1

def answerWrite (store : Store Str Str) (argv : List Str) : Reply × Store Str Str :=
  match parse argv with
  | none => (.error "ERR".toList, store)
  | some r =>
    match r.apply (store r.key) with
    | none => (.error "WRONGTYPE".toList, store)
    | some v => (acknowledgement r, update store r.key v)

theorem sendable_answerWrite (store : Store Str Str) (argv : List Str) :
    Sendable 8 (answerWrite store argv).1 := by
  rw [answerWrite]
  split
  · change '\r' ∉ _
    decide
  · rename_i r _
    split
    · change '\r' ∉ _
      decide
    · cases r <;> simp only [acknowledgement, Sendable] <;> decide

theorem serves_answerWrite {argv : List Str}
    (h : ∀ r, parse argv = some r → ∀ v, Right r v (acknowledgement r)) (store : Store Str Str) :
    Serves store argv (answerWrite store argv).1 (answerWrite store argv).2 := by
  rw [answerWrite]
  split
  · rename_i hparse
    exact .unreadable _ hparse
  · rename_i r hparse
    split
    · rename_i happly
      exact .refuses _ hparse happly
    · rename_i v happly
      exact .executes hparse happly (h r hparse _)

theorem right_acknowledgement (c : Command Str Str) (r : Request) (h : parse (callOf c).argv = some r)
    (v : Option (Value Str)) : Right r v (acknowledgement r) := by
  obtain ⟨key, op⟩ := c
  cases op with
  | hmset fields =>
    by_cases hfields : fields = []
    · subst hfields
      cases h
    · obtain rfl := Option.some.inj ((parse_hmset hfields).symm.trans h)
      exact rfl
  | sadd member =>
    obtain rfl := Option.some.inj ((parse_sadd key member).symm.trans h)
    exact ⟨1, rfl⟩
  | srem member =>
    obtain rfl := Option.some.inj ((parse_srem key member).symm.trans h)
    exact ⟨1, rfl⟩

def sampleAttempts : List Attempt :=
  [⟨fun _ ↦ ⟨5, 9⟩, [.done 500, .done 100, .done 7, .failed]⟩, ⟨fun _ ↦ ⟨0, 1⟩, [.closed]⟩]

theorem interrupted_passes_recover_instance :
    let cs := processRows albumConfig albumDatabase 1 (fun _ ↦ ⟨0, 0⟩) albumRows
    let broken := storeAfter answerWrite (fun prior ↦ processRows albumConfig albumDatabase 1 prior albumRows)
      (fun _ ↦ none) sampleAttempts
    let ending := (pass cs).overWire answerWrite (List.replicate 300 (.done 1)) (World.fresh broken)
    ending.1 = .value () ∧ ending.2.peer.state = run perform (fun _ ↦ none) cs := by
  have h := interrupted_passes_recover albumConfig albumDatabase 1 albumRows determined_albumRows
    (fun _ ↦ ⟨0, 0⟩) answerWrite sendable_answerWrite
    (fun store argv hargv ↦ by
      obtain ⟨c, -, rfl⟩ := List.mem_map.mp hargv
      exact serves_answerWrite (right_acknowledgement c) store)
    (by decide +kernel) (fun _ ↦ none) sampleAttempts (List.replicate 300 (.done 1))
  have hend := h.1 (fun e he ↦ ⟨0, (List.mem_replicate.mp he).2⟩) (by decide +kernel)
  exact ⟨hend, h.2 hend⟩

end Sample

end Calcsig.Indexer.Interrupted
