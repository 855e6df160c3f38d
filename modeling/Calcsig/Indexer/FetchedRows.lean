import Calcsig.Indexer.Model
import Calcsig.MysqlPool.Conversion

namespace Calcsig.Indexer.FetchedRows

open Foundation.Text Model MysqlPool.Fetching MysqlPool.Conversion

variable {row : Row} {name : Str} {i : ℕ}

theorem find_lastOf (h : LastOf (row.map Prod.fst) name i) :
    row.reverse.find? (fun c ↦ c.1 = name) = row[i]? := by
  induction row using List.reverseRecOn with
  | nil => simp [LastOf] at h
  | append_singleton row column ih =>
    rw [List.map_append] at h
    rw [List.reverse_append, List.reverse_singleton, List.singleton_append]
    rcases lastOf_concat.mp h with ⟨rfl, rfl⟩ | ⟨hne, hlast⟩
    · simp
    · have hi : i < row.length := by simpa using lt_of_getElem?_eq_some hlast.1
      rw [List.find?_cons_of_neg (by simpa using Ne.symm hne), ih hlast, List.getElem?_append_left hi]

/-- What the indexer reads of a row by name is what `get_value` gives on the row
that `fetchall` has built. -/
theorem getValue_fetched (row : Row) (name : Str) :
    ∃ fetched, fetchRow (row.map Prod.fst) (row.map Prod.snd) = some fetched ∧
      getValue row name = match fetched.getValue name with
        | none => .error .noField
        | some field => .ok field.value := by
  obtain ⟨fetched, hfetched, hbuilt⟩ := fetchRow_built (row.map Prod.fst) (row.map Prod.snd)
  have hzip : (row.map Prod.fst).zip (row.map Prod.snd) = row := by simp [List.zip_map']
  rw [hzip] at hbuilt
  refine ⟨fetched, hfetched, ?_⟩
  by_cases hname : name ∈ row.map Prod.fst
  · obtain ⟨i, hi⟩ := exists_lastOf hname
    have hlt : i < row.length := by simpa using lt_of_getElem?_eq_some hi.1
    rw [getValue, column, find_lastOf hi, hbuilt.getValue_eq hi, hbuilt.field_eq,
      List.getElem?_eq_getElem hlt]
    obtain ⟨_, cell⟩ := row[i]
    cases cell <;> rfl
  · have hcolumn : column row name = none := by
      rw [column, Option.map_eq_none_iff, List.find?_eq_none]
      rintro c hc hcname
      exact hname (List.mem_map.mpr ⟨c, List.mem_reverse.mp hc, by simpa using hcname⟩)
    rw [getValue, hcolumn, MysqlRow.getValue, hbuilt.absent name hname]
    rfl

/-- The conversion that the indexer makes of it leaves a variable as it was
where the model says that no conversion has set it. -/
theorem asUnsigned_fetched {fetched : MysqlRow} {field : MysqlField} {result : Option ℕ}
    (hrow : fetchRow (row.map Prod.fst) (row.map Prod.snd) = some fetched)
    (hfield : fetched.getValue name = some field) (h : asUnsigned row name = .ok result)
    (prior : UInt32) :
    toUnsignedInt prior field = (result.map UInt32.ofNat).getD prior := by
  obtain ⟨fetched', hrow', hvalue⟩ := getValue_fetched row name
  obtain rfl := Option.some.inj (hrow.symm.trans hrow')
  rw [hfield] at hvalue
  rw [asUnsigned, hvalue] at h
  obtain rfl := Except.ok.inj h
  rfl

end Calcsig.Indexer.FetchedRows
