import Calcsig.Foundation.Text
import Mathlib.Data.List.Induction
import Mathlib.Logic.Function.Basic

namespace Calcsig.MysqlPool.Fetching

open Foundation.Text Function

/-- What the client library has of a result: the names of its columns, and in
each row a byte string or NULL for every column. -/
structure ResultSet where
  names : List Str
  rows : List (List (Option Str))
  shaped : ∀ cells ∈ rows, cells.length = names.length

structure MysqlField where
  name : Str
  value : Str
  length : ℕ
deriving DecidableEq

def MysqlField.setValue (field : MysqlField) (value : Str) (length : ℕ) : MysqlField :=
  { field with value := value, length := length }

/-- The fields of a row are objects of their own, to which the map by name and
the vector by position both point. -/
structure MysqlRow where
  objects : List MysqlField
  fields : Str → Option ℕ
  vfields : List ℕ

namespace MysqlRow

def new : MysqlRow := ⟨[], fun _ ↦ none, []⟩

/-- `none` is the exception for a name that the map does not have. -/
def setField (row : MysqlRow) (name value : Str) (length : ℕ) : Option MysqlRow :=
  (row.fields name).map (fun p ↦
    { row with objects := row.objects.modify p (fun field ↦ field.setValue value length) })

def getValue (row : MysqlRow) (name : Str) : Option MysqlField :=
  (row.fields name).bind (fun p ↦ row.objects[p]?)

def field (row : MysqlRow) (i : ℕ) : Option MysqlField :=
  row.vfields[i]?.bind (fun p ↦ row.objects[p]?)

end MysqlRow

def cellText : Option Str → Str
  | none => []
  | some bytes => cString bytes

def cellLength : Option Str → ℕ
  | none => 0
  | some bytes => bytes.length

def addColumn (row : MysqlRow) (name : Str) (cell : Option Str) : Option MysqlRow :=
  let fieldTmp := row.objects.length
  let row : MysqlRow :=
    { row with
      objects := row.objects ++ [⟨name, [], 0⟩]
      fields := update row.fields name (some fieldTmp) }
  (row.setField name (cellText cell) (cellLength cell)).map (fun row ↦
    { row with vfields := row.vfields ++ [fieldTmp] })

def fetchRow (names : List Str) (cells : List (Option Str)) : Option MysqlRow :=
  (names.zip cells).foldlM (fun row column ↦ addColumn row column.1 column.2) .new

/-- The rows that `fetchall` leaves in a fresh `mysqlresult`. -/
def fetchall (set : ResultSet) : Option (List MysqlRow) := set.rows.mapM (fetchRow set.names)

def LastOf (names : List Str) (name : Str) (i : ℕ) : Prop :=
  names[i]? = some name ∧ ∀ j, i < j → names[j]? ≠ some name

/-- The row has the bytes of each column, empty for NULL, with their number, and
under each name the field of the last column of that name. -/
structure RowReproduced (names : List Str) (cells : List (Option Str)) (row : MysqlRow) : Prop where
  width : row.vfields.length = cells.length
  column : ∀ i cell, cells[i]? = some cell → ∃ field, row.field i = some field ∧
    field.value = cell.getD [] ∧ field.length = field.value.length
  named : ∀ name i, LastOf names name i → row.getValue name = row.field i

def Reproduced (set : ResultSet) (rows : List MysqlRow) : Prop :=
  List.Forall₂ (RowReproduced set.names) set.rows rows

def NulFree (cells : List (Option Str)) : Prop := ∀ text, some text ∈ cells → nul ∉ text

section Columns

abbrev Column := Str × Option Str

def fieldOf (column : Column) : MysqlField := ⟨column.1, cellText column.2, cellLength column.2⟩

/-- What the loop over the columns has built from some of them. -/
structure Built (columns : List Column) (row : MysqlRow) : Prop where
  objects : row.objects = columns.map fieldOf
  vfields : row.vfields = List.range columns.length
  fields : ∀ name i, LastOf (columns.map Prod.fst) name i → row.fields name = some i
  absent : ∀ name, name ∉ columns.map Prod.fst → row.fields name = none

variable {columns : List Column} {row : MysqlRow} {name : Str} {i : ℕ}

theorem modify_concat {α : Type} (l : List α) (a : α) (f : α → α) :
    (l ++ [a]).modify l.length f = l ++ [f a] := by
  induction l with
  | nil => rfl
  | cons b l ih => simp [ih]

theorem addColumn_eq (row : MysqlRow) (name : Str) (cell : Option Str) :
    addColumn row name cell = some
      { objects := row.objects ++ [fieldOf (name, cell)]
        fields := update row.fields name (some row.objects.length)
        vfields := row.vfields ++ [row.objects.length] } := by
  simp [addColumn, MysqlRow.setField, MysqlField.setValue, fieldOf, modify_concat]

theorem lt_of_getElem?_eq_some {α : Type} {l : List α} {a : α} (h : l[i]? = some a) : i < l.length :=
  (List.getElem?_eq_some_iff.mp h).1

theorem lastOf_concat {names : List Str} {new : Str} :
    LastOf (names ++ [new]) name i ↔
      name = new ∧ i = names.length ∨ name ≠ new ∧ LastOf names name i := by
  constructor
  · rintro ⟨hi, hlater⟩
    have hlt := lt_of_getElem?_eq_some hi
    rw [List.length_append, List.length_singleton] at hlt
    by_cases hname : name = new
    · refine .inl ⟨hname, ?_⟩
      by_contra hne
      exact hlater names.length (by omega) (by simp [hname])
    · have hbefore : i < names.length := by
        by_contra hn
        obtain rfl : i = names.length := by omega
        simp [Ne.symm hname] at hi
      refine .inr ⟨hname, by rwa [List.getElem?_append_left hbefore] at hi, fun j hj hjname ↦ ?_⟩
      have hj' := lt_of_getElem?_eq_some hjname
      exact hlater j hj (by rwa [List.getElem?_append_left hj'])
  · rintro (⟨rfl, rfl⟩ | ⟨hname, hi, hlater⟩)
    · refine ⟨by simp, fun j hj hjname ↦ ?_⟩
      have hj' := lt_of_getElem?_eq_some hjname
      rw [List.length_append, List.length_singleton] at hj'
      omega
    · refine ⟨by rwa [List.getElem?_append_left (lt_of_getElem?_eq_some hi)], fun j hj hjname ↦ ?_⟩
      rcases Nat.lt_or_ge j names.length with hj' | hj'
      · rw [List.getElem?_append_left hj'] at hjname
        exact hlater j hj hjname
      · rw [List.getElem?_append_right hj', List.getElem?_singleton] at hjname
        split at hjname
        · exact hname (Option.some.inj hjname).symm
        · cases hjname

theorem exists_lastOf {names : List Str} (h : name ∈ names) : ∃ i, LastOf names name i := by
  induction names using List.reverseRecOn with
  | nil => cases h
  | append_singleton names new ih =>
    by_cases hname : name = new
    · exact ⟨names.length, lastOf_concat.mpr (.inl ⟨hname, rfl⟩)⟩
    · obtain ⟨i, hi⟩ := ih (by simpa [hname] using h)
      exact ⟨i, lastOf_concat.mpr (.inr ⟨hname, hi⟩)⟩

theorem built_new : Built [] .new :=
  ⟨rfl, rfl, fun name i h ↦ by simp [LastOf] at h, fun _ _ ↦ rfl⟩

theorem built_addColumn (h : Built columns row) (column : Column) :
    ∃ row', addColumn row column.1 column.2 = some row' ∧ Built (columns ++ [column]) row' := by
  have hlen : row.objects.length = columns.length := by rw [h.objects, List.length_map]
  refine ⟨_, addColumn_eq row column.1 column.2, ?_, ?_, fun other i hi ↦ ?_, fun other hother ↦ ?_⟩
  · simp [h.objects]
  · simp [h.vfields, hlen, List.range_succ]
  · rw [List.map_append] at hi
    rcases lastOf_concat.mp hi with ⟨rfl, rfl⟩ | ⟨hne, hlast⟩
    · simp [hlen]
    · exact (update_of_ne hne ..).trans (h.fields other i hlast)
  · simp only [List.map_append, List.map_cons, List.map_nil, List.mem_append, List.mem_singleton,
      not_or] at hother
    exact (update_of_ne hother.2 ..).trans (h.absent other hother.1)

theorem built_foldlM (h : Built columns row) (more : List Column) :
    ∃ row', more.foldlM (fun row column ↦ addColumn row column.1 column.2) row = some row' ∧
      Built (columns ++ more) row' := by
  induction more generalizing columns row with
  | nil => exact ⟨row, rfl, by simpa using h⟩
  | cons column more ih =>
    obtain ⟨next, hnext, hbuilt⟩ := built_addColumn h column
    obtain ⟨row', hrow', hall⟩ := ih hbuilt
    refine ⟨row', ?_, by simpa using hall⟩
    rw [List.foldlM_cons, hnext]
    exact hrow'

theorem fetchRow_built (names : List Str) (cells : List (Option Str)) :
    ∃ row, fetchRow names cells = some row ∧ Built (names.zip cells) row :=
  built_foldlM built_new (names.zip cells)

theorem Built.field_eq (h : Built columns row) (i : ℕ) : row.field i = columns[i]?.map fieldOf := by
  rw [MysqlRow.field, h.vfields, h.objects]
  by_cases hi : i < columns.length
  · simp [hi]
  · have hle := Nat.le_of_not_lt hi
    rw [List.getElem?_eq_none hle, List.getElem?_eq_none (by rwa [List.length_range])]
    rfl

theorem Built.getValue_eq (h : Built columns row) (hi : LastOf (columns.map Prod.fst) name i) :
    row.getValue name = row.field i := by
  rw [h.field_eq, MysqlRow.getValue, h.fields name i hi, Option.bind_some, h.objects,
    List.getElem?_map]

end Columns

section Rows

variable {names : List Str} {cells : List (Option Str)} {row : MysqlRow}

theorem Built.field_cell (h : Built (names.zip cells) row) (hlen : cells.length = names.length)
    {i : ℕ} {cell : Option Str} (hi : cells[i]? = some cell) :
    ∃ name, row.field i = some ⟨name, cellText cell, cellLength cell⟩ := by
  have hlt : i < names.length := hlen ▸ lt_of_getElem?_eq_some hi
  have hcolumn : (names.zip cells)[i]? = some (names[i], cell) :=
    List.getElem?_zip_eq_some.mpr ⟨List.getElem?_eq_getElem hlt, hi⟩
  refine ⟨names[i], ?_⟩
  rw [h.field_eq, hcolumn]
  rfl

theorem Built.reproduced_iff (h : Built (names.zip cells) row) (hlen : cells.length = names.length) :
    RowReproduced names cells row ↔ NulFree cells := by
  constructor
  · intro hrow text htext
    obtain ⟨i, hi⟩ := List.mem_iff_getElem?.mp htext
    obtain ⟨name, hfield⟩ := h.field_cell hlen hi
    obtain ⟨field, hfield', hvalue, -⟩ := hrow.column i _ hi
    obtain rfl := Option.some.inj (hfield.symm.trans hfield')
    exact cString_eq_self_iff.mp hvalue
  · intro hfree
    have hnames : (names.zip cells).map Prod.fst = names := List.map_fst_zip hlen.ge
    refine ⟨by simp [h.vfields, hlen], fun i cell hi ↦ ?_, fun name i hi ↦ ?_⟩
    · obtain ⟨name, hfield⟩ := h.field_cell hlen hi
      refine ⟨_, hfield, ?_⟩
      cases cell with
      | none => exact ⟨rfl, rfl⟩
      | some text =>
        have hsame := cString_of_nul_free (hfree text (List.mem_of_getElem? hi))
        simp [cellText, cellLength, hsame]
    · exact h.getValue_eq (by rwa [hnames])

end Rows

theorem fetchall_built (set : ResultSet) :
    ∃ rows, fetchall set = some rows ∧
      List.Forall₂ (fun cells row ↦ Built (set.names.zip cells) row) set.rows rows := by
  unfold fetchall
  induction set.rows with
  | nil => exact ⟨[], rfl, .nil⟩
  | cons cells rest ih =>
    obtain ⟨row, hrow, hbuilt⟩ := fetchRow_built set.names cells
    obtain ⟨rows, hrows, hall⟩ := ih
    exact ⟨row :: rows, by simp [List.mapM_cons, hrow, hrows], .cons hbuilt hall⟩

theorem forall₂_iff_forall {α β : Type} {R S : α → β → Prop} {P : α → Prop} {as : List α}
    {bs : List β} (h : List.Forall₂ S as bs) (hiff : ∀ a ∈ as, ∀ b, S a b → (R a b ↔ P a)) :
    List.Forall₂ R as bs ↔ ∀ a ∈ as, P a := by
  induction h with
  | nil => simp
  | cons hab _ ih =>
    rw [List.forall₂_cons, List.forall_mem_cons, hiff _ List.mem_cons_self _ hab,
      ih (fun a ha ↦ hiff a (List.mem_cons_of_mem _ ha))]

/-- `fetchall` always comes to its end, and it reproduces the result exactly if
no value has a NUL byte in it. -/
theorem fetchall_reproduced_iff (set : ResultSet) :
    ∃ rows, fetchall set = some rows ∧ (Reproduced set rows ↔ ∀ cells ∈ set.rows, NulFree cells) := by
  obtain ⟨rows, hrows, hbuilt⟩ := fetchall_built set
  refine ⟨rows, hrows, forall₂_iff_forall hbuilt fun cells hcells row h ↦ ?_⟩
  exact h.reproduced_iff (set.shaped cells hcells)

def binarySet : ResultSet where
  names := ["data".toList]
  rows := [[some ['a', nul]]]
  shaped := by simp

theorem fetchall_truncates :
    ∃ row, fetchall binarySet = some [row] ∧ row.field 0 = some ⟨"data".toList, ['a'], 2⟩ ∧
      ¬ Reproduced binarySet [row] := by
  refine ⟨_, rfl, rfl, fun h ↦ ?_⟩
  obtain ⟨field, hfield, hvalue, -⟩ := (List.forall₂_cons.mp h).1.column 0 _ rfl
  obtain rfl := Option.some.inj hfield
  cases hvalue

end Calcsig.MysqlPool.Fetching
