import Calcsig.RedisPool.Clients

namespace Calcsig.RedisPool.Sets

open Foundation.Text Foundation.TypedStore Foundation.RedisServer
open Hiredis.Replies Hiredis.Commands Hiredis.Exchange Hiredis.Conversation Connection Clients

/-- A change to a set. -/
inductive Edit
  | add (value : Str)
  | del (value : Str)

namespace Edit

def op : Edit → Op Str
  | add value => .sadd value
  | del value => .srem value

end Edit

def contents (S : Finset Str) (edits : List Edit) : Finset Str := members S (edits.map Edit.op)

/-- A program that changes a set and reads it back, whatever the calls return. -/
def editSet (key : Str) : List Edit → Client (List Str)
  | [] => .call (getSet key) .done
  | edit :: edits => .call (callOf ⟨key, edit.op⟩) (fun _ ↦ editSet key edits)

section Reading

variable {store store' : Store Str Str} {key : Str} {S : Finset Str} {reply : Reply}

theorem parse_smembers (key : Str) : parse ["SMEMBERS".toList, key] = some (.smembers key) := by
  simp only [parse, show "SMEMBERS".toList ≠ "HMSET".toList by decide,
    show "SMEMBERS".toList ≠ "HGETALL".toList by decide,
    show "SMEMBERS".toList ≠ "GET".toList by decide, if_false, if_true]

theorem readSet_strings (listed : List Str) : readSet (listed.map .string) = listed.map cString := by
  rw [readSet, List.filterMap_map]
  exact congrFun List.filterMap_eq_map listed

theorem value_of_getSet (hstore : store key = ofSet S)
    (h : Serves store (getSet key).argv reply store') :
    ∃ listed : List Str, listed.Nodup ∧ listed.toFinset = S ∧
      ((getSet key).interpret (some reply)).value = some (listed.map cString) := by
  have hright : (∃ listed : List Str, listed.Nodup ∧ listed.toFinset = S ∧
      reply = .array (listed.map .string)) := by
    rcases h.cases (parse_smembers key) with ⟨v, -, hright, -⟩ | ⟨hfail, -⟩
    · by_cases hS : S.Nonempty
      · rw [Request.key, hstore, ofSet, dif_pos hS] at hright
        exact hright
      · obtain rfl := Finset.not_nonempty_iff_eq_empty.mp hS
        rw [Request.key, hstore, ofSet_empty] at hright
        exact ⟨[], List.nodup_nil, rfl, hright⟩
    · rw [Request.key, hstore, ofSet] at hfail
      split at hfail <;> cases hfail
  obtain ⟨listed, hnodup, hlisted, rfl⟩ := hright
  exact ⟨listed, hnodup, hlisted, congrArg some (readSet_strings listed)⟩

theorem perform_edit (hstore : store key = ofSet S) (edit : Edit) :
    perform store ⟨key, edit.op⟩ key = ofSet (contents S [edit]) := by
  rw [perform, Function.update_self, hstore]
  cases edit with
  | add value => exact after_sadd S value
  | del value => exact after_srem S value

end Reading

section Programs

variable {σ : Type} {answer : σ → List Str → Reply × σ} {view : σ → Store Str Str}
  {key : Str} {S : Finset Str}

/-- The server keeps to the commands that the program sends; what its state holds
is seen through the given view. -/
structure Keeps (answer : σ → List Str → Reply × σ) (view : σ → Store Str Str) (key : Str) : Prop where
  edits (s : σ) (edit : Edit) :
    let argv := (callOf ⟨key, edit.op⟩).argv
    Serves (view s) argv (answer s argv).1 (view (answer s argv).2)
  reads (s : σ) :
    let argv := (getSet key).argv
    Serves (view s) argv (answer s argv).1 (view (answer s argv).2)

theorem against_editSet (h : Keeps answer view key) (edits : List Edit) {s : σ}
    (hstore : view s key = ofSet S) :
    ∃ listed : List Str, listed.Nodup ∧ listed.toFinset = contents S edits ∧
      ((editSet key edits).against answer s).1 = some (listed.map cString) := by
  induction edits generalizing s S with
  | nil =>
    obtain ⟨listed, hnodup, hlisted, hvalue⟩ := value_of_getSet hstore (h.reads s)
    refine ⟨listed, hnodup, hlisted, ?_⟩
    rw [editSet, Client.against, hvalue]
    rfl
  | cons edit edits ih =>
    have hnext := perform_edit hstore edit
    rw [← perform_of_serves _ (h.edits s edit)] at hnext
    obtain ⟨listed, hnodup, hlisted, hvalue⟩ := ih hnext
    refine ⟨listed, hnodup, hlisted, ?_⟩
    rw [editSet, Client.against, callOf_value]
    exact hvalue

end Programs

/-- A program that has changed a set over the wire and read it back gets exactly the
members that its changes leave, each of them once, if and only if none of them has
a NUL character in it. It gets a list as long as bytes are moved. -/
theorem set_round_trip_iff {σ : Type} (answer : σ → List Str → Reply × σ) (view : σ → Store Str Str)
    (key : Str) (hkeeps : Keeps answer view key) (s : σ) (S : Finset Str)
    (hstore : view s key = ofSet S) (edits : List Edit) (hp : (editSet key edits).Proper answer s)
    (script : List Sys) :
    let ending := (editSet key edits).overWire answer script (World.fresh s)
    (Productive script → (editSet key edits).bytes answer s ≤ script.length →
        ∃ listed, ending.1 = .value listed) ∧
      ∀ listed, ending.1 = .value listed →
        ((listed.Nodup ∧ listed.toFinset = contents S edits) ↔ ∀ x ∈ contents S edits, nul ∉ x) := by
  intro ending
  obtain ⟨order, hnodup, horder, hvalue⟩ := against_editSet hkeeps edits hstore
  refine ⟨fun hscript henough ↦ ?_, fun listed hlisted ↦ ?_⟩
  · exact ⟨_, over_completes hp (clean_fresh s) hscript henough (Prod.ext hvalue rfl)⟩
  have hagainst := (over_spec hp (clean_fresh s) script).2 listed hlisted
  rw [hagainst] at hvalue
  obtain rfl := Option.some.inj hvalue
  rw [← horder]
  constructor
  · rintro ⟨-, hsame⟩ x hx
    rw [← hsame, List.mem_toFinset] at hx
    obtain ⟨y, -, rfl⟩ := List.mem_map.mp hx
    exact nul_notMem_cString y
  · intro hfree
    have hid : order.map cString = order :=
      (List.map_congr_left fun x hx ↦ cString_of_nul_free (hfree x (List.mem_toFinset.mpr hx))).trans
        (List.map_id order)
    rw [hid]
    exact ⟨hnodup, rfl⟩

section Sample

def answerSet (listed : List Str) : List Str → Reply × List Str
  | [_, _] => (.array (listed.dedup.map .string), listed)
  | [name, _, value] =>
    (.integer 1, if name = "SADD".toList then value :: listed else listed.filter (· ≠ value))
  | _ => (.error "ERR".toList, listed)

def oneSet (key : Str) (listed : List Str) : Store Str Str :=
  Function.update (fun _ ↦ none) key (ofSet listed.toFinset)

theorem serves_oneSet {key : Str} {listed listed' argv : List Str} {r : Request} {reply : Reply}
    (hparse : parse argv = some r) (hkey : r.key = key)
    (happly : r.apply (ofSet listed.toFinset) = some (ofSet listed'.toFinset))
    (hright : Right r (ofSet listed.toFinset) reply) :
    Serves (oneSet key listed) argv reply (oneSet key listed') := by
  subst hkey
  have hold : oneSet r.key listed r.key = ofSet listed.toFinset := Function.update_self ..
  have hnew : Function.update (oneSet r.key listed) r.key (ofSet listed'.toFinset) =
      oneSet r.key listed' := Function.update_idem ..
  rw [← hnew]
  refine .executes hparse ?_ ?_
  · rw [hold, happly]
  · rwa [hold]

theorem apply_ofSet {r : Request} {S T : Finset Str} (hnone : S = ∅ → r.apply none = some (ofSet T))
    (hset : ∀ hS : S.Nonempty, r.apply (some (.set S hS)) = some (ofSet T)) :
    r.apply (ofSet S) = some (ofSet T) := by
  rcases Finset.eq_empty_or_nonempty S with hempty | hS
  · rw [← hnone hempty, hempty, ofSet_empty]
  · rw [← hset hS, ofSet, dif_pos hS]

theorem right_smembers (key : Str) (listed : List Str) :
    Right (.smembers key) (ofSet listed.toFinset) (.array (listed.dedup.map .string)) := by
  cases listed with
  | nil => exact rfl
  | cons value listed =>
    have hne : (value :: listed).toFinset.Nonempty := ⟨value, by simp⟩
    have hset : (value :: listed).dedup.toFinset = (value :: listed).toFinset := by
      ext x
      rw [List.mem_toFinset, List.mem_toFinset, List.mem_dedup]
    rw [ofSet, dif_pos hne]
    exact ⟨_, List.nodup_dedup _, hset, rfl⟩

theorem keeps_answerSet (key : Str) : Keeps answerSet (oneSet key) key where
  edits listed edit := by
    cases edit with
    | add value =>
      refine serves_oneSet (parse_sadd key value) rfl ?_ ⟨1, rfl⟩
      change _ = some (ofSet (value :: listed).toFinset)
      rw [List.toFinset_cons]
      exact apply_ofSet (fun hempty ↦ by rw [hempty]; rfl) (fun _ ↦ rfl)
    | del value =>
      refine serves_oneSet (parse_srem key value) rfl ?_ ⟨1, rfl⟩
      change _ = some (ofSet (listed.filter (· ≠ value)).toFinset)
      have hfilter : (listed.filter (· ≠ value)).toFinset = listed.toFinset.erase value := by
        ext x
        simp [and_comm]
      rw [hfilter]
      exact apply_ofSet (fun hempty ↦ by rw [hempty]; rfl) (fun _ ↦ rfl)
  reads listed := by
    refine serves_oneSet (parse_smembers key) rfl ?_ (right_smembers key listed)
    change _ = some (ofSet listed.toFinset)
    exact apply_ofSet (fun hempty ↦ by rw [hempty]; rfl) (fun hS ↦ by rw [ofSet, dif_pos hS]; rfl)

def sampleEdits : List Edit := [.add "a".toList, .add "b".toList, .del "a".toList]

theorem set_round_trip_iff_instance :
    let ending := (editSet "s".toList sampleEdits).overWire answerSet (List.replicate 200 (.done 1))
      (World.fresh ["c".toList])
    ∃ listed, ending.1 = .value listed ∧ listed.Nodup ∧
      listed.toFinset = {"b".toList, "c".toList} := by
  have hproper : (editSet "s".toList sampleEdits).Proper answerSet ["c".toList] := by
    have hone : Sendable 8 (.integer 1) := by constructor <;> decide
    have hlist : Sendable 8 (.array (["b".toList, "c".toList].map .string)) := by
      refine ⟨by decide, by decide, ?_, ?_, trivial⟩ <;> (change _ < 9223372036854775808; decide)
    exact ⟨by decide, hone, rfl, fun _ _ ↦ ⟨by decide, hone, rfl, fun _ _ ↦ ⟨by decide, hone, rfl,
      fun _ _ ↦ ⟨by decide, hlist, rfl, fun _ _ ↦ trivial⟩⟩⟩⟩
  have hcontents : contents {"c".toList} sampleEdits = {"b".toList, "c".toList} := by decide
  have h := set_round_trip_iff answerSet (oneSet "s".toList) "s".toList (keeps_answerSet _)
    ["c".toList] {"c".toList} (Function.update_self ..) sampleEdits hproper
    (List.replicate 200 (.done 1))
  obtain ⟨listed, hlisted⟩ := h.1 (fun e he ↦ ⟨0, (List.mem_replicate.mp he).2⟩) (by decide +kernel)
  rw [hcontents] at h
  obtain ⟨hnodup, hset⟩ := (h.2 listed hlisted).mpr (by decide)
  exact ⟨listed, hlisted, hnodup, hset⟩

end Sample

end Calcsig.RedisPool.Sets
