import Calcsig.Foundation.Text
import Calcsig.Foundation.TypedStore
import Calcsig.ObjectPool.Model

namespace Calcsig.Indexer.Model

open Foundation.Text Foundation.TypedStore ObjectPool.Model

/-- A row as the server sends it: the columns with their texts, none for NULL. -/
abbrev Row := List (Str × Option Str)

/-- The exceptions that leave `start`: a row has no field of that name, or the
connection to the database cannot be made again. -/
inductive Fault
  | noField
  | noConnection
deriving DecidableEq

section Rows

variable (row : Row)

/-- Of several columns with one name the last is the one found by it. -/
def column (name : Str) : Option (Option Str) :=
  (row.reverse.find? (fun c ↦ c.1 = name)).map Prod.snd

/-- The text that `set_field` has stored: NULL as the empty text, any other up
to its first NUL character. -/
def getValue (name : Str) : Except Fault Str :=
  match column row name with
  | none => .error .noField
  | some none => .ok []
  | some (some text) => .ok (cString text)

def asText (name : Str) : Except Fault Str := (getValue row name).map firstWord

/-- The conversion operator at `unsigned int`; of an empty text it sets nothing. -/
def asUnsigned (name : Str) : Except Fault (Option ℕ) :=
  (getValue row name).map (extractUnsigned UInt32.size)

def emplace (data : List (Str × Str)) (field value : Str) : List (Str × Str) :=
  if data.any (fun entry ↦ entry.1 = field) then data else data ++ [(field, value)]

/-- The loop over a section of the configuration, in the order in which its map
is walked through. -/
def hashData (tableConfig : List (Str × Str)) : Except Fault (List (Str × Str)) :=
  tableConfig.foldlM (fun data entry ↦ (asText row entry.1).map (emplace data entry.2)) []

end Rows

/-- `isNone` is the equality with "none" that the column's collation gives. -/
structure Database where
  musicPay : List Row
  audioProduct : List Row
  isNone : Str → Bool
  isNone_none : isNone "none".toList = true

def Database.binary (musicPay audioProduct : List Row) : Database :=
  ⟨musicPay, audioProduct, fun s ↦ s = "none".toList, rfl⟩

/-- What the conversions to numbers find in their variables, which they return
where the column is empty. -/
structure Prior where
  rid : UInt32
  audioSourceId : UInt32

/-- A round of the loop over the rows. -/
structure Visit where
  row : Row
  prior : Prior

def visits (prior : ℕ → Prior) (rows : List Row) : List Visit :=
  rows.zipIdx.map (fun found ↦ ⟨found.1, prior found.2⟩)

abbrev Config := Str → List (Str × Str)

def typeTable : ℕ → Str
  | 0 => "Music".toList
  | 1 => "Album".toList
  | 2 => "Artist".toList
  | _ => "Music".toList

section Queries

def cell (row : Row) (name : Str) : Option Str := (column row name).join

def number (row : Row) (name : Str) : Option ℕ := (cell row name).bind numeral

def isPolicy (db : Database) (row : Row) : Bool :=
  match cell row "policy".toList with
  | none => false
  | some policy => !db.isNone policy

def selectPay (db : Database) (type rid : ℕ) : List Row :=
  db.musicPay.filter (fun row ↦ isPolicy db row && number row "type".toList = some type &&
    number row "rid".toList = some rid)

def selectAudio (db : Database) (audioSourceId : ℕ) : List Row :=
  db.audioProduct.filter (fun row ↦ number row "audiosourceid".toList = some audioSourceId)

end Queries

/-- What the processing writes to the store, one entry for each round of its
loops. Everything that can break a round off comes before its first command. -/
inductive Write
  | record (rid : ℕ) (fields : List (Str × Str))
  | policy (rid : ℕ) (policy : Str) (fields : List (Str × Str))
  | noPolicy (rid : ℕ)
  | product (rid : ℕ) (audioProductId : Str) (fields : List (Str × Str))

def recordKey (table : Str) (rid : ℕ) : Str := table ++ ':' :: decimal rid

def policyKey (table policy : Str) (rid : ℕ) : Str := table ++ ':' :: (policy ++ ':' :: decimal rid)

def payKey (table : Str) (rid : ℕ) : Str := table ++ ":Pay:".toList ++ decimal rid

def audioKey (table : Str) (rid : ℕ) : Str := table ++ ":Audio:".toList ++ decimal rid

def productKey (audioProductId : Str) : Str := "Audio:".toList ++ audioProductId

def Write.commands (table : Str) : Write → List (Command Str Str)
  | .record rid fields => [⟨recordKey table rid, .hmset fields⟩]
  | .policy rid word fields =>
    [⟨policyKey table word rid, .hmset fields⟩, ⟨payKey table rid, .sadd word⟩,
      ⟨payKey table rid, .srem "none".toList⟩]
  | .noPolicy rid => [⟨payKey table rid, .sadd "none".toList⟩]
  | .product rid audioProductId fields =>
    [⟨productKey audioProductId, .hmset fields⟩, ⟨audioKey table rid, .sadd audioProductId⟩]

section Processing

variable (config : Config) (db : Database)

def payStep (rid : ℕ) (row : Row) : Except Fault Write := do
  let _ ← getValue row "id".toList
  let policy ← asText row "policy".toList
  let fields ← hashData row (config "Payinfo".toList)
  return .policy rid policy fields

def paySteps (type rid : ℕ) : List (Except Fault Write) :=
  let found := selectPay db type rid
  if 0 < int32 found.length then found.map (payStep config rid) else [.ok (.noPolicy rid)]

def audioStep (rid : ℕ) (row : Row) : Except Fault Write := do
  let audioProductId ← asText row "id".toList
  let fields ← hashData row (config "Audioinfo".toList)
  return .product rid audioProductId fields

def audioSteps (rid audioSourceId : ℕ) : List (Except Fault Write) :=
  let found := selectAudio db audioSourceId
  if 0 < audioSourceId ∧ 0 < int32 found.length then found.map (audioStep config rid) else []

structure Record where
  rid : ℕ
  audioSourceId : ℕ
  fields : List (Str × Str)

def recordOf (type : ℕ) (visit : Visit) : Except Fault Record := do
  let id ← asUnsigned visit.row "id".toList
  let audioSourceId ← asUnsigned visit.row "audiosourceid".toList
  let fields ← hashData visit.row (config (typeTable type))
  return ⟨id.getD visit.prior.rid.toNat, audioSourceId.getD visit.prior.audioSourceId.toNat, fields⟩

def attachedSteps (type : ℕ) (record : Record) : List (Except Fault Write) :=
  (if type = 0 ∨ type = 1 then paySteps config db type record.rid else []) ++
    (if type = 0 then audioSteps config db record.rid record.audioSourceId else [])

/-- The rounds of one row of the table; the first that breaks off ends them. -/
def rowSteps (type : ℕ) (visit : Visit) : List (Except Fault Write) :=
  match recordOf config type visit with
  | .error fault => [.error fault]
  | .ok record =>
    .ok (.record record.rid record.fields) :: attachedSteps config db type record

end Processing

def completed {α : Type} : List (Except Fault α) → List α
  | .ok a :: steps => a :: completed steps
  | _ => []

def finishes {α : Type} (steps : List (Except Fault α)) : Bool := steps.all Except.isOk

/-- The commands that the processing of the rows sends to the store. Both
indexers process their rows with this code. -/
def processRows (config : Config) (db : Database) (type : ℕ) (prior : ℕ → Prior) (rows : List Row) :
    List (Command Str Str) :=
  (completed ((visits prior rows).flatMap (rowSteps config db type))).flatMap
    (Write.commands (typeTable type))

section Finishing

variable {α : Type} {steps steps' : List (Except Fault α)}

theorem finishes_append : finishes (steps ++ steps') = true ↔
    finishes steps = true ∧ finishes steps' = true := by
  simp [finishes]

theorem completed_append (h : finishes steps = true) :
    completed (steps ++ steps') = completed steps ++ completed steps' := by
  induction steps with
  | nil => rfl
  | cons step steps ih =>
    cases step with
    | error fault => cases h
    | ok a => exact congrArg (a :: ·) (ih h)

theorem completed_append_of_not (h : finishes steps ≠ true) :
    completed (steps ++ steps') = completed steps := by
  induction steps with
  | nil => exact (h rfl).elim
  | cons step steps ih =>
    cases step with
    | error fault => rfl
    | ok a => exact congrArg (a :: ·) (ih h)

theorem mem_completed {a : α} (h : a ∈ completed steps) : .ok a ∈ steps := by
  induction steps with
  | nil => cases h
  | cons step steps ih =>
    cases step with
    | error fault => cases h
    | ok b =>
      rcases List.mem_cons.mp h with rfl | h
      · exact List.mem_cons_self
      · exact List.mem_cons_of_mem _ (ih h)

end Finishing

section Visits

theorem map_row_visits (prior : ℕ → Prior) (rows : List Row) :
    (visits prior rows).map Visit.row = rows := by
  rw [visits, List.map_map]
  exact List.zipIdx_map_fst 0 rows

theorem length_visits (prior : ℕ → Prior) (rows : List Row) :
    (visits prior rows).length = rows.length := by
  simp [visits]

/-- The numeric columns of the row are not empty. -/
def Determined (row : Row) : Prop :=
  asUnsigned row "id".toList ≠ .ok none ∧ asUnsigned row "audiosourceid".toList ≠ .ok none

end Visits

section Steps

variable {config : Config} {db : Database} {type rid : ℕ} {row : Row} {visit : Visit} {w : Write}

theorem bind_eq_ok {α β : Type} {x : Except Fault α} {f : α → Except Fault β} {b : β} :
    x >>= f = .ok b ↔ ∃ a, x = .ok a ∧ f a = .ok b := by
  cases x with
  | error fault => exact iff_of_false nofun (by simp)
  | ok a => exact ⟨fun h ↦ ⟨a, rfl, h⟩, fun ⟨a', ha, h⟩ ↦ by cases ha; exact h⟩

theorem payStep_eq_ok (h : payStep config rid row = .ok w) :
    ∃ word fields, asText row "policy".toList = .ok word ∧ w = .policy rid word fields := by
  simp only [payStep, bind_eq_ok] at h
  obtain ⟨-, -, word, hword, fields, -, hw⟩ := h
  cases hw
  exact ⟨word, fields, hword, rfl⟩

theorem audioStep_eq_ok (h : audioStep config rid row = .ok w) :
    ∃ word fields, asText row "id".toList = .ok word ∧ w = .product rid word fields := by
  simp only [audioStep, bind_eq_ok] at h
  obtain ⟨word, hword, fields, -, hw⟩ := h
  cases hw
  exact ⟨word, fields, hword, rfl⟩

theorem recordOf_eq_ok {record : Record} (h : recordOf config type visit = .ok record) :
    (∃ id, asUnsigned visit.row "id".toList = .ok id ∧
        record.rid = id.getD visit.prior.rid.toNat) ∧
      (∃ audioSourceId, asUnsigned visit.row "audiosourceid".toList = .ok audioSourceId ∧
        record.audioSourceId = audioSourceId.getD visit.prior.audioSourceId.toNat) ∧
      hashData visit.row (config (typeTable type)) = .ok record.fields := by
  simp only [recordOf, bind_eq_ok] at h
  obtain ⟨id, hid, audioSourceId, haudio, fields, hfields, h⟩ := h
  cases h
  exact ⟨⟨id, hid, rfl⟩, ⟨audioSourceId, haudio, rfl⟩, hfields⟩

theorem recordOf_congr {prior prior' : Prior} (h : Determined row) :
    recordOf config type ⟨row, prior⟩ = recordOf config type ⟨row, prior'⟩ := by
  simp only [recordOf]
  cases hid : asUnsigned row "id".toList with
  | error fault => rfl
  | ok id =>
    cases haudio : asUnsigned row "audiosourceid".toList with
    | error fault => rfl
    | ok audioSourceId =>
      cases id with
      | none => exact (h.1 hid).elim
      | some rid =>
        cases audioSourceId with
        | none => exact (h.2 haudio).elim
        | some audioSourceId => rfl

theorem processRows_congr {rows : List Row} (h : ∀ row ∈ rows, Determined row)
    (prior prior' : ℕ → Prior) :
    processRows config db type prior rows = processRows config db type prior' rows := by
  have hsteps : (visits prior rows).flatMap (rowSteps config db type) =
      (visits prior' rows).flatMap (rowSteps config db type) := by
    simp only [visits, List.flatMap_map]
    refine List.flatMap_congr fun found hfound ↦ ?_
    simp only [rowSteps]
    rw [recordOf_congr (h found.1 (List.fst_mem_of_mem_zipIdx hfound))]
  rw [processRows, hsteps, ← processRows]

theorem mem_paySteps (h : .ok w ∈ paySteps config db type rid) :
    (∃ row word fields, asText row "policy".toList = .ok word ∧ w = .policy rid word fields) ∨
      w = .noPolicy rid := by
  simp only [paySteps] at h
  split at h
  · obtain ⟨row, -, hrow⟩ := List.mem_map.mp h
    exact .inl ⟨row, payStep_eq_ok hrow⟩
  · cases List.mem_singleton.mp h
    exact .inr rfl

theorem mem_audioSteps {audioSourceId : ℕ} (h : .ok w ∈ audioSteps config db rid audioSourceId) :
    ∃ row word fields, asText row "id".toList = .ok word ∧ w = .product rid word fields := by
  simp only [audioSteps] at h
  split at h
  · obtain ⟨row, -, hrow⟩ := List.mem_map.mp h
    exact ⟨row, audioStep_eq_ok hrow⟩
  · cases h

theorem processRows_singleton {prior : ℕ → Prior} {record : Record}
    (h : recordOf config type ⟨row, prior 0⟩ = .ok record) :
    processRows config db type prior [row] =
      ((Write.record record.rid record.fields) ::
        completed (attachedSteps config db type record)).flatMap
          (Write.commands (typeTable type)) := by
  have hvisits : visits prior [row] = [⟨row, prior 0⟩] := rfl
  simp only [processRows, hvisits, List.flatMap_cons, List.flatMap_nil, List.append_nil, rowSteps, h]
  rfl

end Steps

end Calcsig.Indexer.Model
