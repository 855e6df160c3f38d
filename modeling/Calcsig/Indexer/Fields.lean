import Calcsig.Indexer.Keys

namespace Calcsig.Indexer.Fields

open Foundation.Text Foundation.Runs Foundation.TypedStore Model Keys

def Entry (row : Row) (entry field : Str × Str) : Prop :=
  field.1 = entry.2 ∧ asText row entry.1 = .ok field.2

theorem emplace_of_notMem {data : List (Str × Str)} {field : Str} (value : Str)
    (h : field ∉ data.map Prod.fst) : emplace data field value = data ++ [(field, value)] := by
  have hany : data.any (fun entry ↦ entry.1 = field) = false := by
    simp only [List.any_eq_false, decide_eq_true_eq]
    rintro entry hentry rfl
    exact h (List.mem_map_of_mem hentry)
  simp [emplace, hany]

theorem foldlM_entries {row : Row} {entries data fields : List (Str × Str)}
    (h : entries.foldlM (fun data entry ↦ (asText row entry.1).map (emplace data entry.2)) data =
      .ok fields)
    (hnodup : (data.map Prod.fst ++ entries.map Prod.snd).Nodup) :
    ∃ values, fields = data ++ values ∧ List.Forall₂ (Entry row) entries values := by
  induction entries generalizing data with
  | nil =>
    cases h
    exact ⟨[], (List.append_nil _).symm, .nil⟩
  | cons entry entries ih =>
    rw [List.foldlM_cons] at h
    cases hv : asText row entry.1 with
    | error fault =>
      rw [hv] at h
      cases h
    | ok value =>
      have hfresh : entry.2 ∉ data.map Prod.fst := by
        intro hin
        exact (List.nodup_append.mp hnodup).2.2 _ hin _ List.mem_cons_self rfl
      have hnext : entries.foldlM
          (fun data entry ↦ (asText row entry.1).map (emplace data entry.2))
          (data ++ [(entry.2, value)]) = .ok fields := by
        rw [hv] at h
        rw [← emplace_of_notMem value hfresh]
        exact h
      obtain ⟨values, rfl, hvalues⟩ := ih hnext (by simpa using hnodup)
      exact ⟨(entry.2, value) :: values, by simp, .cons ⟨rfl, hv⟩ hvalues⟩

theorem hashData_entries {row : Row} {tableConfig fields : List (Str × Str)}
    (h : hashData row tableConfig = .ok fields) (hnodup : (tableConfig.map Prod.snd).Nodup) :
    List.Forall₂ (Entry row) tableConfig fields := by
  obtain ⟨values, rfl, hvalues⟩ := foldlM_entries h hnodup
  exact hvalues

theorem map_fst_of_entries {row : Row} {entries fields : List (Str × Str)}
    (h : List.Forall₂ (Entry row) entries fields) : fields.map Prod.fst = entries.map Prod.snd := by
  induction h with
  | nil => rfl
  | cons hfirst _ ih => simp only [List.map_cons, hfirst.1, ih]

theorem exists_field {row : Row} {entries fields : List (Str × Str)} {name target : Str}
    (h : List.Forall₂ (Entry row) entries fields) (hmem : (name, target) ∈ entries) :
    ∃ value, asText row name = .ok value ∧ (target, value) ∈ fields := by
  induction h with
  | nil => cases hmem
  | @cons entry field entries fields hfirst _ ih =>
    rcases List.mem_cons.mp hmem with heq | hmem
    · refine ⟨field.2, by simpa [← heq] using hfirst.2, ?_⟩
      rw [show target = field.1 by rw [hfirst.1, ← heq]]
      exact List.mem_cons_self
    · obtain ⟨value, hvalue, hin⟩ := ih hmem
      exact ⟨value, hvalue, List.mem_cons_of_mem _ hin⟩

theorem recordOps_of_mem {config : Config} {db : Database} {type r : ℕ} {record : Record}
    {w : Write} (h : .ok w ∈ attachedSteps config db type record) : recordOps r w = [] := by
  rcases List.mem_append.mp h with h | h <;> split at h
  · rcases mem_paySteps h with ⟨-, word, fields, -, rfl⟩ | rfl <;> rfl
  · cases h
  · obtain ⟨-, word, fields, -, rfl⟩ := mem_audioSteps h
    rfl
  · cases h

theorem opsOn_processed {config : Config} (db : Database) {type : ℕ} {prior : ℕ → Prior} {row : Row}
    {record : Record} (h : recordOf config type ⟨row, prior 0⟩ = .ok record) :
    opsOn (recordKey (typeTable type) record.rid) (processRows config db type prior [row]) =
      [.hmset record.fields] := by
  have hrest : (completed (attachedSteps config db type record)).flatMap (recordOps record.rid) = [] :=
    List.flatMap_eq_nil_iff.mpr (fun w hw ↦ recordOps_of_mem (mem_completed hw))
  rw [processRows_singleton h, opsOn_flatMap]
  simp only [opsOn_recordKey, List.flatMap_cons, hrest, List.append_nil]
  simp only [recordOps, if_true]

/-- Under the record's key the target has the column's own text exactly when
the text is free of blanks and of NUL characters. -/
theorem indexed_field_iff (config : Config) (db : Database) (type : ℕ) (prior : ℕ → Prior) (row : Row)
    (record : Record) (store : Store Str Str) (name target text : Str)
    (hrecord : recordOf config type ⟨row, prior 0⟩ = .ok record)
    (hdistinct : ((config (typeTable type)).map Prod.snd).Nodup)
    (hset : (Op.hmset record.fields).succeeds
      (store (recordKey (typeTable type) record.rid)) = true)
    (hentry : (name, target) ∈ config (typeTable type))
    (htext : column row name = some (some text)) :
    (∃ h, run perform store (processRows config db type prior [row])
        (recordKey (typeTable type) record.rid) = some (.hash h) ∧ h target = some text) ↔
      (∀ c ∈ text, isSpace c = false) ∧ nul ∉ text := by
  have hentries := hashData_entries (recordOf_eq_ok hrecord).2.2 hdistinct
  obtain ⟨value, hvalue, hfield⟩ := exists_field hentries hentry
  have hword : value = firstWord (cString text) := by
    simp only [asText, getValue, htext, Except.map] at hvalue
    exact (Except.ok.inj hvalue).symm
  have hnodup : (record.fields.map Prod.fst).Nodup := by rwa [map_fst_of_entries hentries]
  obtain ⟨h, hafter⟩ := Op.hmset_after hset
  have hrun : run perform store (processRows config db type prior [row])
      (recordKey (typeTable type) record.rid) = some (.hash (assign h record.fields)) := by
    rw [run_perform_apply, opsOn_processed db hrecord]
    exact hafter
  have htarget : assign h record.fields target = some (firstWord (cString text)) := by
    rw [← hword]
    exact assign_of_mem hnodup hfield
  rw [hrun, ← firstWord_cString_iff]
  simp [htarget]

section Sample

def sampleConfig : Config := fun name ↦
  if name = "Artist".toList then [("name".toList, "title".toList)] else []

def sampleDatabase : Database := .binary [] []

def zeros : ℕ → Prior := fun _ ↦ ⟨0, 0⟩

def artistRow (name : String) : Row :=
  [("id".toList, some "7".toList), ("audiosourceid".toList, some "0".toList),
    ("name".toList, some name.toList)]

theorem indexed_field_iff_instance :
    ∃ h, run perform (fun _ ↦ none)
        (processRows sampleConfig sampleDatabase 2 zeros [artistRow "abba"])
      (recordKey (typeTable 2) 7) = some (.hash h) ∧ h "title".toList = some "abba".toList :=
  (indexed_field_iff sampleConfig sampleDatabase 2 zeros (artistRow "abba")
    ⟨7, 0, [("title".toList, "abba".toList)]⟩ (fun _ ↦ none) "name".toList "title".toList
    "abba".toList rfl (by decide) rfl (by decide) rfl).mpr (firstWord_cString_iff.mp rfl)

theorem second_word_lost :
    column (artistRow "a b") "name".toList = some (some "a b".toList) ∧
      ∃ h, run perform (fun _ ↦ none)
          (processRows sampleConfig sampleDatabase 2 zeros [artistRow "a b"])
        (recordKey (typeTable 2) 7) = some (.hash h) ∧ h "title".toList = some "a".toList :=
  ⟨rfl, _, rfl, rfl⟩

end Sample

end Calcsig.Indexer.Fields
