import Calcsig.Indexer.Keys
import Mathlib.Data.Finset.Basic
import Mathlib.Data.Finset.Dedup
import Mathlib.Data.Finset.Lattice.Lemmas

namespace Calcsig.Indexer.Passes

open Foundation.Text Foundation.Runs Foundation.TypedStore ObjectPool.Model Model Keys

def payRows (db : Database) (type rid : ℕ) : List Row :=
  let found := selectPay db type rid
  if 0 < int32 found.length then found else []

def audioRows (db : Database) (audioSourceId : ℕ) : List Row :=
  let found := selectAudio db audioSourceId
  if 0 < audioSourceId ∧ 0 < int32 found.length then found else []

def words (name : String) (rows : List Row) : List Str :=
  rows.filterMap (fun row ↦ (asText row name.toList).toOption)

section Finishing

variable {α : Type} {steps : List (Except Fault α)}

theorem eq_nil_of_completed (h : finishes steps = true) (hnil : completed steps = []) : steps = [] := by
  cases steps with
  | nil => rfl
  | cons step steps =>
    cases step with
    | error fault => cases h
    | ok a => cases hnil

theorem ok_of_finishes (h : finishes steps = true) {step : Except Fault α} (hmem : step ∈ steps) :
    ∃ a, step = .ok a := by
  have hok := List.all_eq_true.mp h step hmem
  cases step with
  | error fault => cases hok
  | ok a => exact ⟨a, rfl⟩

end Finishing

variable {config : Config} {db : Database} {type rid : ℕ} {prior : ℕ → Prior} {row : Row}
  {record : Record}

theorem record_of_finishes {visit : Visit} (h : finishes (rowSteps config db type visit) = true) :
    ∃ record, recordOf config type visit = .ok record ∧
      finishes (attachedSteps config db type record) = true := by
  unfold rowSteps at h
  split at h
  · cases h
  · rename_i record hrecord
    exact ⟨record, hrecord, h⟩

theorem paySteps_eq :
    paySteps config db type rid =
      if payRows db type rid = [] then [.ok (.noPolicy rid)]
      else (payRows db type rid).map (payStep config rid) := by
  simp only [paySteps, payRows]
  split
  · rename_i hcount
    rw [if_neg]
    intro hnil
    rw [hnil] at hcount
    exact absurd hcount (by decide)
  · rfl

theorem audioSteps_eq (audioSourceId : ℕ) :
    audioSteps config db rid audioSourceId =
      (audioRows db audioSourceId).map (audioStep config rid) := by
  simp only [audioSteps, audioRows]
  split <;> rfl

theorem completed_words {name : String} {f : Row → Except Fault Write}
    {write : Str → List (Str × Str) → Write} {rows : List Row}
    (hf : ∀ row w, f row = .ok w →
      ∃ word fields, asText row name.toList = .ok word ∧ w = write word fields)
    (h : finishes (rows.map f) = true) :
    List.Forall₂ (fun w word ↦ ∃ fields, w = write word fields) (completed (rows.map f))
      (words name rows) := by
  induction rows with
  | nil => exact .nil
  | cons row rows ih =>
    obtain ⟨w, hw⟩ : ∃ w, f row = .ok w := ok_of_finishes h (by simp)
    obtain ⟨word, fields, hword, rfl⟩ := hf row w hw
    have hwords : words name (row :: rows) = word :: words name rows := by
      simp only [words, List.filterMap_cons, hword, Except.toOption]
    rw [List.map_cons, hw] at h ⊢
    rw [hwords]
    exact .cons ⟨fields, rfl⟩ (ih h)

section PayOps

theorem members_policy (S : Finset Str) (word : Str) (fields : List (Str × Str)) :
    members S (payOps rid (.policy rid word fields)) = (insert word S).erase "none".toList := by
  rw [payOps, if_pos rfl]
  split <;> rfl

theorem members_policies {ws : List Write} {read : List Str} (S : Finset Str)
    (h : List.Forall₂ (fun w word ↦ ∃ fields, w = .policy rid word fields) ws read)
    (hne : read ≠ [] ∨ "none".toList ∉ S) :
    members S (ws.flatMap (payOps rid)) = (S ∪ read.toFinset).erase "none".toList := by
  induction h generalizing S with
  | nil =>
    have hnone := hne.resolve_left (fun h ↦ h rfl)
    rw [List.toFinset_nil, Finset.union_empty, Finset.erase_eq_of_notMem hnone]
    rfl
  | @cons w word ws read hw _ ih =>
    obtain ⟨fields, rfl⟩ := hw
    rw [List.flatMap_cons, members_append, members_policy, ih _ (.inr (Finset.notMem_erase _ _)),
      List.toFinset_cons, Finset.union_insert, ← Finset.insert_union, Finset.erase_union_distrib,
      Finset.erase_idem, ← Finset.erase_union_distrib]

theorem opsOn_pay (htype : type = 0 ∨ type = 1)
    (hrecord : recordOf config type ⟨row, prior 0⟩ = .ok record)
    (hfin : finishes (attachedSteps config db type record) = true) :
    opsOn (payKey (typeTable type) record.rid) (processRows config db type prior [row]) =
      (completed (paySteps config db type record.rid)).flatMap (payOps record.rid) := by
  rw [attachedSteps, if_pos htype, finishes_append] at hfin
  have hproducts : (completed (if type = 0 then audioSteps config db record.rid record.audioSourceId
      else [])).flatMap (payOps record.rid) = [] := by
    apply List.flatMap_eq_nil_iff.mpr
    intro w hw
    have hmem := mem_completed hw
    split at hmem
    · obtain ⟨-, word, fields, -, rfl⟩ := mem_audioSteps hmem
      rfl
    · cases hmem
  rw [processRows_singleton hrecord, opsOn_flatMap]
  simp only [opsOn_payKey, List.flatMap_cons, attachedSteps, if_pos htype, completed_append hfin.1,
    List.flatMap_append, hproducts, List.append_nil]
  rfl

/-- A pass without failing commands adds the policies it reads to the record's
set and takes "none" out, or it reads none and puts "none" in. -/
theorem pay_pass (prior : ℕ → Prior) {S : Finset Str} {store : Store Str Str} (htype : type = 0 ∨ type = 1)
    (hrecord : recordOf config type ⟨row, prior 0⟩ = .ok record)
    (hfin : finishes (attachedSteps config db type record) = true)
    (hok : Succeed store (processRows config db type prior [row]))
    (hS : store (payKey (typeTable type) record.rid) = ofSet S) :
    run perform store (processRows config db type prior [row]) (payKey (typeTable type) record.rid) =
      ofSet (if payRows db type record.rid = [] then insert "none".toList S
        else (S ∪ (words "policy" (payRows db type record.rid)).toFinset).erase "none".toList) := by
  have hops := opsOn_pay htype hrecord hfin
  have hsucceed := hok.on (payKey (typeTable type) record.rid)
  rw [hS, hops] at hsucceed
  rw [attachedSteps, if_pos htype, finishes_append, paySteps_eq] at hfin
  rw [run_perform_apply, hS, hops,
    runOps_of_guarded hsucceed (guarded_flatMap (guarded_payOps record.rid) _), paySteps_eq]
  split
  · simp [completed, payOps, run, Op.onMembers]
  · rename_i hne
    rw [if_neg hne] at hfin
    have hwords := completed_words (fun _ _ ↦ payStep_eq_ok) hfin.1
    have hread : words "policy" (payRows db type record.rid) ≠ [] := by
      intro hnil
      rw [hnil, List.forall₂_nil_right_iff] at hwords
      exact hne (by simpa using eq_nil_of_completed hfin.1 hwords)
    rw [members_policies S hwords (.inl hread)]

end PayOps

section AudioOps

theorem members_products {ws : List Write} {read : List Str} (G : Finset Str)
    (h : List.Forall₂ (fun w word ↦ ∃ fields, w = .product rid word fields) ws read) :
    members G (ws.flatMap (audioOps rid)) = G ∪ read.toFinset := by
  induction h generalizing G with
  | nil => simp [run]
  | @cons w word ws read hw _ ih =>
    obtain ⟨fields, rfl⟩ := hw
    have hword : members G (audioOps rid (.product rid word fields)) = insert word G := by
      rw [audioOps, if_pos rfl]
      rfl
    rw [List.flatMap_cons, members_append, hword, ih, List.toFinset_cons, Finset.insert_union,
      Finset.union_insert]

theorem hmset_of_policies {ws : List Write} {read : List Str}
    (h : List.Forall₂ (fun w word ↦ ∃ fields, w = .policy rid word fields) ws read) :
    (∃ fields, .hmset fields ∈ ws.flatMap (audioOps rid)) ↔ "Audio".toList ∈ read := by
  induction h with
  | nil => simp
  | @cons w word ws read hw _ ih =>
    obtain ⟨fields, rfl⟩ := hw
    simp only [List.flatMap_cons, List.mem_append, exists_or, ih, List.mem_cons, audioOps, and_true]
    split
    · rename_i hword
      simp [hword]
    · rename_i hword
      simp only [List.not_mem_nil, exists_false, false_or, Ne.symm hword]

theorem hmset_audio_iff (hfin : finishes (paySteps config db type rid) = true) :
    (∃ fields, .hmset fields ∈ (completed (paySteps config db type rid)).flatMap (audioOps rid)) ↔
      "Audio".toList ∈ words "policy" (payRows db type rid) := by
  rw [paySteps_eq] at hfin ⊢
  split
  · rename_i hnil
    rw [hnil]
    exact iff_of_false (fun ⟨_, h⟩ ↦ by cases h) List.not_mem_nil
  · rename_i hne
    rw [if_neg hne] at hfin
    exact hmset_of_policies (completed_words (fun _ _ ↦ payStep_eq_ok) hfin)

theorem audioOps_pay {op : Op Str}
    (h : op ∈ (completed (paySteps config db type rid)).flatMap (audioOps rid)) :
    ∃ fields, op = .hmset fields := by
  obtain ⟨w, hw, hop⟩ := List.mem_flatMap.mp h
  rcases mem_paySteps (mem_completed hw) with ⟨-, word, fields, -, rfl⟩ | rfl
  · rw [audioOps] at hop
    split at hop
    · exact ⟨fields, List.mem_singleton.mp hop⟩
    · cases hop
  · cases hop

theorem audioOps_products {audioSourceId : ℕ} {op : Op Str}
    (h : op ∈ (completed (audioSteps config db rid audioSourceId)).flatMap (audioOps rid)) :
    ∃ word, op = .sadd word := by
  obtain ⟨w, hw, hop⟩ := List.mem_flatMap.mp h
  obtain ⟨-, word, fields, -, rfl⟩ := mem_audioSteps (mem_completed hw)
  rw [audioOps, if_pos rfl] at hop
  exact ⟨word, List.mem_singleton.mp hop⟩

theorem opsOn_audio (hrecord : recordOf config 0 ⟨row, prior 0⟩ = .ok record)
    (hfin : finishes (attachedSteps config db 0 record) = true) :
    opsOn (audioKey (typeTable 0) record.rid) (processRows config db 0 prior [row]) =
      (completed (paySteps config db 0 record.rid)).flatMap (audioOps record.rid) ++
        (completed (audioSteps config db record.rid record.audioSourceId)).flatMap
          (audioOps record.rid) := by
  have hpay := (finishes_append.mp hfin).1
  rw [processRows_singleton hrecord, opsOn_flatMap]
  simp only [opsOn_audioKey, List.flatMap_cons, attachedSteps, true_or, if_true] at hpay ⊢
  rw [completed_append hpay, List.flatMap_append]
  rfl

/-- A pass without failing commands adds the products it reads to the record's
set, which is a set no more once a policy "Audio" has been read. -/
theorem audio_pass (prior : ℕ → Prior) {G : Finset Str} {store : Store Str Str}
    (hrecord : recordOf config 0 ⟨row, prior 0⟩ = .ok record)
    (hfin : finishes (attachedSteps config db 0 record) = true)
    (hok : Succeed store (processRows config db 0 prior [row]))
    (hG : store (audioKey (typeTable 0) record.rid) = ofSet G) :
    ("Audio".toList ∉ words "policy" (payRows db 0 record.rid) ∧
      run perform store (processRows config db 0 prior [row]) (audioKey (typeTable 0) record.rid) =
        ofSet (G ∪ (words "id" (audioRows db record.audioSourceId)).toFinset)) ∨
    ("Audio".toList ∈ words "policy" (payRows db 0 record.rid) ∧
      ∃ h, run perform store (processRows config db 0 prior [row])
        (audioKey (typeTable 0) record.rid) = some (.hash h)) := by
  have hops := opsOn_audio hrecord hfin
  have hsucceed := hok.on (audioKey (typeTable 0) record.rid)
  rw [hG, hops] at hsucceed
  rw [attachedSteps, if_pos (.inl rfl), if_pos rfl, finishes_append] at hfin
  rw [run_perform_apply, hG, hops, ← hmset_audio_iff hfin.1]
  rcases setOrHash_of_succeeds hsucceed with ⟨hno, he⟩ | ⟨before, fields, rest, h, hsplit, -, he⟩
  · refine .inl ⟨fun ⟨fields, hin⟩ ↦ hno fields (List.mem_append_left _ hin), ?_⟩
    rw [audioSteps_eq] at hfin he ⊢
    rw [he, members_append, members_of_hmset fun op ↦ audioOps_pay,
      members_products G (completed_words (fun _ _ ↦ audioStep_eq_ok) hfin.2)]
  · refine .inr ⟨⟨fields, ?_⟩, h, he⟩
    have hin : Op.hmset fields ∈ before ++ .hmset fields :: rest := by simp
    rw [← hsplit] at hin
    rcases List.mem_append.mp hin with hin | hin
    · exact hin
    · obtain ⟨word, hword⟩ := audioOps_products hin
      cases hword

end AudioOps

end Calcsig.Indexer.Passes
