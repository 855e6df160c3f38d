import Calcsig.Indexer.Model

namespace Calcsig.Indexer.Coverage

open Foundation.Text Foundation.TypedStore ObjectPool.Model Model

def ids (table : List Row) : List ℕ := table.filterMap (fun row ↦ number row "id".toList)

/-- The answer to `select max(id)`, which is NULL for an empty table, read into
a variable with the given old value. -/
def maxId (stale : ℕ) (table : List Row) : ℕ :=
  (extractUnsigned UInt32.size (((ids table).max?.map decimal).getD [])).getD stale

/-- The windows of the loop over the ids: its body ends with a `break`. -/
def windows (maxId step : ℕ) : List (ℕ × ℕ) := if 0 < maxId then [(0, step)] else []

def inWindow (window : ℕ × ℕ) (row : Row) : Bool :=
  match number row "id".toList with
  | none => false
  | some id => window.1 ≤ id && id < window.2

def visited (table : List Row) (window : ℕ × ℕ) : List Row :=
  let found := table.filter (inWindow window)
  if 0 < int32 found.length then found else []

structure Pass where
  processed : List Row
  commands : List (Command Str Str)

variable (config : Config) (db : Database) (type : ℕ)

/-- One run of the full indexer over a table. An exception ends it. -/
def start (stale : ℕ) (prior : ℕ → Prior) (table : List Row) (step : UInt32) : Pass :=
  let rows := (windows (maxId stale table) step.toNat).flatMap (visited table)
  { processed := ((visits prior rows).takeWhile
      (fun visit ↦ finishes (rowSteps config db type visit))).map Visit.row
    commands := processRows config db type prior rows }

section Maximum

variable {table : List Row}

theorem mem_ids {id : ℕ} : id ∈ ids table ↔ ∃ row ∈ table, number row "id".toList = some id :=
  List.mem_filterMap

theorem maxId_pos_iff (stale : ℕ) (hne : table ≠ [])
    (hids : ∀ row ∈ table, ∃ id, number row "id".toList = some id ∧ id < UInt32.size) :
    0 < maxId stale table ↔ ∃ id ∈ ids table, 0 < id := by
  obtain ⟨first, hfirst⟩ := List.exists_mem_of_ne_nil table hne
  obtain ⟨id, hid, -⟩ := hids first hfirst
  have hmem : id ∈ ids table := mem_ids.mpr ⟨first, hfirst, hid⟩
  cases hmax : (ids table).max? with
  | none =>
    rw [List.max?_eq_none_iff.mp hmax] at hmem
    cases hmem
  | some m =>
    obtain ⟨hm, hle⟩ := List.max?_eq_some_iff.mp hmax
    obtain ⟨row, hrow, hnumber⟩ := mem_ids.mp hm
    obtain ⟨m', hm', hlt⟩ := hids row hrow
    obtain rfl : m = m' := Option.some.inj (hnumber.symm.trans hm')
    have hvalue : maxId stale table = m := by
      simp only [maxId, hmax, Option.map_some, Option.getD_some, extractUnsigned_decimal hlt]
    rw [hvalue]
    exact ⟨fun h ↦ ⟨m, hm, h⟩, fun ⟨id, hid, hpos⟩ ↦ hpos.trans_le (hle id hid)⟩

end Maximum

section Windows

variable {table : List Row} {window : ℕ × ℕ}

theorem visited_sublist : (visited table window).Sublist table := by
  simp only [visited]
  split
  · exact List.filter_sublist
  · exact List.nil_sublist table

theorem visited_eq_self_iff (hne : table ≠ []) :
    visited table window = table ↔
      (∀ row ∈ table, inWindow window row = true) ∧ 0 < int32 table.length := by
  rw [← List.filter_eq_self]
  simp only [visited]
  constructor
  · intro h
    split at h
    · rename_i hcount
      rw [h] at hcount
      exact ⟨h, hcount⟩
    · exact (hne h.symm).elim
  · rintro ⟨hall, hcount⟩
    rw [hall, if_pos hcount]

theorem forall_inWindow_iff {bound : ℕ}
    (hids : ∀ row ∈ table, ∃ id, number row "id".toList = some id ∧ id < UInt32.size) :
    (∀ row ∈ table, inWindow (0, bound) row = true) ↔ ∀ id ∈ ids table, id < bound := by
  constructor
  · intro h id hid
    obtain ⟨row, hrow, hnumber⟩ := mem_ids.mp hid
    have hin := h row hrow
    simp only [inWindow, hnumber] at hin
    simpa using hin
  · intro h row hrow
    obtain ⟨id, hid, -⟩ := hids row hrow
    have hlt := h id (mem_ids.mpr ⟨row, hrow, hid⟩)
    simp only [inWindow, hid]
    simpa using hlt

theorem takeWhile_perm_iff {p : Visit → Bool} {prior : ℕ → Prior} {rows : List Row}
    (h : rows.Sublist table) :
    (((visits prior rows).takeWhile p).map Visit.row).Perm table ↔
      rows = table ∧ ∀ visit ∈ visits prior table, p visit = true := by
  constructor
  · intro hperm
    have htake := List.takeWhile_sublist (p := p) (l := visits prior rows)
    have hlen : ((visits prior rows).takeWhile p).length = table.length := by
      rw [← hperm.length_eq, List.length_map]
    have hle := htake.length_le
    rw [hlen, length_visits] at hle
    obtain rfl : rows = table := h.eq_of_length_le hle
    rw [← length_visits prior rows] at hlen
    exact ⟨rfl, List.takeWhile_eq_self_iff.mp (htake.eq_of_length hlen)⟩
  · rintro ⟨rfl, hall⟩
    rw [List.takeWhile_eq_self_iff.mpr hall, map_row_visits]

end Windows

/-- A run of the full indexer processes every row of the table once exactly when
the table is empty, or every id is below the step and some id is not zero; the
count of the rows must also fit and no row may break the processing off. -/
theorem coverage_iff (stale : ℕ) (prior : ℕ → Prior) (table : List Row) (step : UInt32)
    (hids : ∀ row ∈ table, ∃ id, number row "id".toList = some id ∧ id < UInt32.size) :
    (start config db type stale prior table step).processed.Perm table ↔
      table = [] ∨ ((∃ id ∈ ids table, 0 < id) ∧ (∀ id ∈ ids table, id < step.toNat) ∧
        0 < int32 table.length ∧
        ∀ visit ∈ visits prior table, finishes (rowSteps config db type visit) = true) := by
  by_cases hne : table = []
  · subst hne
    refine iff_of_true ?_ (.inl rfl)
    simp only [start, windows]
    split <;> simp [visited, visits]
  · simp only [hne, false_or, ← maxId_pos_iff stale hne hids, start, windows]
    by_cases hpos : 0 < maxId stale table
    · simp only [hpos, if_true, true_and, List.flatMap_cons, List.flatMap_nil, List.append_nil]
      rw [takeWhile_perm_iff visited_sublist, visited_eq_self_iff hne, forall_inWindow_iff hids,
        and_assoc]
    · simp [hpos, hne, visits]

section Sample

def sampleRow (id : String) (audioSourceId : Option Str) : Row :=
  [("id".toList, some id.toList), ("audiosourceid".toList, audioSourceId)]

def sampleDatabase : Database :=
  .binary [[("id".toList, some "1".toList), ("type".toList, some "0".toList),
      ("rid".toList, some "3".toList), ("policy".toList, some "vip".toList)]]
    [[("id".toList, some "8".toList), ("audiosourceid".toList, some "4".toList)]]

def sampleTable : List Row :=
  [sampleRow "1" none, sampleRow "2" (some "4".toList), sampleRow "3" (some "0".toList)]

/-- The conversion of the first row's source finds 4 in its variable. -/
theorem coverage_iff_instance :
    (start (fun _ ↦ []) sampleDatabase 0 0 (fun _ ↦ ⟨0, 4⟩) sampleTable 4).processed.Perm
      sampleTable := by
  apply (coverage_iff (fun _ ↦ []) sampleDatabase 0 0 (fun _ ↦ ⟨0, 4⟩) sampleTable 4 ?_).mpr
  · refine .inr ⟨⟨1, by decide, by decide⟩, by decide, by decide, ?_⟩
    intro visit hvisit
    simp only [sampleTable, visits, List.zipIdx_cons, List.zipIdx_nil, List.map_cons, List.map_nil,
      List.mem_cons, List.not_mem_nil, or_false] at hvisit
    rcases hvisit with rfl | rfl | rfl <;> decide
  · intro row hrow
    simp only [sampleTable, List.mem_cons, List.not_mem_nil, or_false] at hrow
    rcases hrow with rfl | rfl | rfl
    · exact ⟨1, by decide, by decide⟩
    · exact ⟨2, by decide, by decide⟩
    · exact ⟨3, by decide, by decide⟩

/-- The row with the largest id is left out. -/
theorem last_row_skipped :
    (start (fun _ ↦ []) sampleDatabase 2 0 (fun _ ↦ ⟨0, 0⟩)
        [sampleRow "0" (some "0".toList), sampleRow "1" (some "0".toList)] 1).processed =
      [sampleRow "0" (some "0".toList)] := by
  decide

end Sample

end Calcsig.Indexer.Coverage
