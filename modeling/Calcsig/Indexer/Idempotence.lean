import Calcsig.Indexer.Keys

namespace Calcsig.Indexer.Idempotence

open Foundation.Text Foundation.Runs Foundation.TypedStore Model Keys

theorem srem_mem_payOps {rid : ℕ} {w : Write} {x : Str} (h : .srem x ∈ payOps rid w) :
    x = "none".toList := by
  cases w with
  | policy r word fields =>
    rw [payOps] at h
    split at h
    · rcases List.mem_append.mp h with h | h
      · split at h <;> simp at h
      · simpa using h
    · simp at h
  | noPolicy r =>
    rw [payOps] at h
    split at h <;> simp at h
  | record r fields => simp [payOps] at h
  | product r audioProductId fields => simp [payOps] at h

theorem key_of_srem {table key x : Str} {w : Write} (h : ⟨key, .srem x⟩ ∈ w.commands table) :
    ∃ rid, key = payKey table rid := by
  cases w with
  | policy r word fields =>
    simp [Write.commands] at h
    exact ⟨r, h.1⟩
  | record r fields => simp [Write.commands] at h
  | noPolicy r => simp [Write.commands] at h
  | product r audioProductId fields => simp [Write.commands] at h

theorem stable_writes (type : ℕ) (ws : List Write) (key : Str) :
    Stable (opsOn key (ws.flatMap (Write.commands (typeTable type)))) := by
  by_cases hkey : ∃ rid, key = payKey (typeTable type) rid
  · obtain ⟨rid, rfl⟩ := hkey
    have hops : opsOn (payKey (typeTable type) rid) (ws.flatMap (Write.commands (typeTable type))) =
        ws.flatMap (payOps rid) := by
      rw [opsOn_flatMap]
      simp only [opsOn_payKey]
    rw [hops]
    refine .inr ⟨"Pay".toList, guarded_flatMap (guarded_payOps rid) ws, fun hin ↦ ?_⟩
    obtain ⟨w, -, hw⟩ := List.mem_flatMap.mp hin
    exact absurd (srem_mem_payOps hw) (by decide)
  · refine .inl fun x hin ↦ hkey ?_
    obtain ⟨w, -, hw⟩ := List.mem_flatMap.mp (mem_opsOn.mp hin)
    exact key_of_srem hw

/-- Processing the same rows again, with the database unchanged, leaves the
store as the first pass has left it. -/
theorem reindexing_idempotent (config : Config) (db : Database) (type : ℕ) (rows : List Row)
    (hrows : ∀ row ∈ rows, Determined row) (prior prior' : ℕ → Prior) (store : Store Str Str) :
    run perform (run perform store (processRows config db type prior rows))
        (processRows config db type prior' rows) =
      run perform store (processRows config db type prior rows) := by
  rw [processRows_congr hrows prior' prior]
  exact run_perform_twice (stable_writes type _) store

section Sample

def albumConfig : Config := fun table ↦
  if table = "Album".toList then [("name".toList, "title".toList)] else []

def albumDatabase : Database :=
  .binary [[("id".toList, some "1".toList), ("type".toList, some "1".toList),
    ("rid".toList, some "7".toList), ("policy".toList, some "vip".toList)]] []

def albumRows : List Row :=
  [[("id".toList, some "7".toList), ("audiosourceid".toList, some "0".toList),
    ("name".toList, some "X".toList)]]

theorem determined_albumRows : ∀ row ∈ albumRows, Determined row := by
  intro row hrow
  obtain rfl := List.mem_singleton.mp hrow
  exact ⟨by decide, by decide⟩

theorem reindexing_idempotent_instance :
    let once := run perform (fun _ ↦ none)
      (processRows albumConfig albumDatabase 1 (fun _ ↦ ⟨0, 0⟩) albumRows)
    run perform once (processRows albumConfig albumDatabase 1 (fun _ ↦ ⟨5, 9⟩) albumRows) = once ∧
      once (payKey (typeTable 1) 7) = ofSet {"vip".toList} :=
  ⟨reindexing_idempotent albumConfig albumDatabase 1 albumRows determined_albumRows _ _ _, rfl⟩

end Sample

end Calcsig.Indexer.Idempotence
