import Calcsig.MysqlPool.Fetching

namespace Calcsig.MysqlPool.Conversion

open Foundation.Text Fetching

section Operator

variable {T : Type}

/-- The conversion operator: the result is a variable without an initial value,
which keeps what its storage holds where the extraction does not set it. -/
def convert (extract : Str → Option T) (prior : T) (field : MysqlField) : T :=
  (extract field.value).getD prior

theorem convert_determined_iff {x y : T} (hne : x ≠ y) {extract : Str → Option T}
    {field : MysqlField} :
    (∀ prior prior', convert extract prior field = convert extract prior' field) ↔
      extract field.value ≠ none := by
  unfold convert
  cases extract field.value with
  | none => exact iff_of_false (fun h ↦ hne (h x y)) (by simp)
  | some value => simp

end Operator

def toUnsignedInt : UInt32 → MysqlField → UInt32 :=
  convert (fun s ↦ (extractUnsigned UInt32.size s).map UInt32.ofNat)

def toInt : Int32 → MysqlField → Int32 :=
  convert (fun s ↦ (extractSigned UInt32.size s).map Int32.ofInt)

/-- The number depends on the field only, and the decimal text of a number in
the type's range gives that number. -/
structure Determined (field : MysqlField) : Prop where
  unsigned : ∀ prior prior', toUnsignedInt prior field = toUnsignedInt prior' field
  signed : ∀ prior prior', toInt prior field = toInt prior' field
  decimal_unsigned : ∀ n : UInt32, field.value = decimal n.toNat →
    ∀ prior, toUnsignedInt prior field = n
  decimal_signed : ∀ n : Int32, field.value = rendering n.toInt → ∀ prior, toInt prior field = n

theorem toUnsignedInt_decimal {field : MysqlField} {n : UInt32} (h : field.value = decimal n.toNat)
    (prior : UInt32) : toUnsignedInt prior field = n := by
  simp only [toUnsignedInt, convert, h, extractUnsigned_decimal n.toNat_lt_size, Option.map_some,
    UInt32.ofNat_toNat, Option.getD_some]

theorem toInt_rendering {field : MysqlField} {n : Int32} (h : field.value = rendering n.toInt)
    (prior : Int32) : toInt prior field = n := by
  have hvalue : extractSigned UInt32.size (rendering n.toInt) = some n.toInt :=
    extractSigned_rendering n.le_toInt n.toInt_lt
  simp only [toInt, convert, h, hvalue, Option.map_some, Int32.ofInt_toInt, Option.getD_some]

/-- A conversion is determined by the field exactly when the field's text is not
blank. -/
theorem conversion_determined_iff (field : MysqlField) :
    Determined field ↔ ∃ c ∈ field.value, isSpace c = false := by
  have hunsigned : (∀ prior prior', toUnsignedInt prior field = toUnsignedInt prior' field) ↔
      ∃ c ∈ field.value, isSpace c = false := by
    rw [toUnsignedInt, convert_determined_iff (show (0 : UInt32) ≠ 1 by decide), ne_eq,
      Option.map_eq_none_iff, extractUnsigned_eq_none_iff, not_not]
  have hsigned : (∀ prior prior', toInt prior field = toInt prior' field) ↔
      ∃ c ∈ field.value, isSpace c = false := by
    rw [toInt, convert_determined_iff (show (0 : Int32) ≠ 1 by decide), ne_eq,
      Option.map_eq_none_iff, extractSigned_eq_none_iff, not_not]
  refine ⟨fun h ↦ hunsigned.mp h.unsigned, fun h ↦ ⟨hunsigned.mpr h, hsigned.mpr h, ?_, ?_⟩⟩
  · exact fun n hn prior ↦ toUnsignedInt_decimal hn prior
  · exact fun n hn prior ↦ toInt_rendering hn prior

def emptyTable : ResultSet where
  names := ["max(id)".toList]
  rows := [[none]]
  shaped := by simp

theorem max_id_undetermined :
    ∃ row field, fetchall emptyTable = some [row] ∧ row.getValue "max(id)".toList = some field ∧
      toUnsignedInt 0 field = 0 ∧ toUnsignedInt 7 field = 7 ∧ ¬ Determined field := by
  refine ⟨_, _, rfl, rfl, by decide, by decide, fun h ↦ ?_⟩
  exact absurd (h.unsigned 0 7) (by decide)

end Calcsig.MysqlPool.Conversion
