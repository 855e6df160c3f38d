import Calcsig.Server.Request

namespace Calcsig.Server.RequestOutcome

open Foundation.Text Foundation.Documents Worker Request

def optional : List Str := ["table".toList, "file_format".toList]

/-- The values the handler can deal with: nothing, or an object that lacks one
of the required members, or an object whose five members are no arrays and
no objects. -/
def Answerable : Json → Prop
  | .null => True
  | .object members =>
    (∀ key ∈ required, (members.any (fun m ↦ m.1 = key)) = true) →
      ∀ key ∈ required ++ optional, ∀ v, (Json.object members).member key = some v → v.isScalar = true
  | _ => False

def Incomplete : Json → Prop
  | .null => True
  | .object members => ∃ key ∈ required, (members.any (fun m ↦ m.1 = key)) = false
  | _ => False

theorem hasAll_object (members : List (Str × Json)) (keys : List Str) :
    hasAll (.object members) keys = some (keys.all (fun key ↦ members.any (fun m ↦ m.1 = key))) := by
  induction keys with
  | nil => rfl
  | cons key keys ih =>
    simp only [hasAll, Json.isMember, List.all_cons]
    cases members.any (fun m ↦ m.1 = key) with
    | true => simpa only [Bool.true_and] using ih
    | false => rfl

theorem hasAll_eq_false_iff (data : Json) : hasAll data required = some false ↔ Incomplete data := by
  cases data with
  | object members =>
    simp only [hasAll_object, Incomplete, Option.some.injEq, List.all_eq_false, Bool.not_eq_true]
  | null => exact iff_of_true rfl trivial
  | _ => exact iff_of_false (by simp [required, hasAll, Json.isMember]) id

theorem hasAll_eq_true_iff (data : Json) :
    hasAll data required = some true ↔ ∃ members, data = .object members ∧
      ∀ key ∈ required, (members.any (fun m ↦ m.1 = key)) = true := by
  cases data with
  | object members => simp [hasAll_object]
  | null => exact iff_of_false (by decide) (by simp)
  | _ => exact iff_of_false (by simp [required, hasAll, Json.isMember]) (by simp)

theorem not_answerable_of_hasAll {data : Json} (h : hasAll data required = none) :
    ¬ Answerable data := by
  cases data with
  | object members => simp [hasAll_object] at h
  | null => cases h
  | _ => exact id

theorem text_isSome_iff (data : Json) (key : String) :
    (text data key).isSome = true ↔
      ∃ v, data.member key.toList = some v ∧ v.isScalar = true := by
  rw [text]
  cases data.member key.toList with
  | none => simp
  | some v => simp [Json.asString_isSome]

theorem taskOf_isSome_iff (members : List (Str × Json)) :
    (taskOf (.object members)).isSome = true ↔
      ∀ key ∈ required ++ optional, ∀ v,
        (Json.object members).member key = some v → v.isScalar = true := by
  have htext (key : String) : (text (.object members) key).isSome = true ↔
      ∀ v, (Json.object members).member key.toList = some v → v.isScalar = true := by
    rw [text_isSome_iff]
    simp [Json.member]
  simp only [required, optional, List.cons_append, List.nil_append, List.forall_mem_cons,
    ← htext, List.not_mem_nil, false_imp_iff, implies_true, and_true]
  unfold taskOf
  cases text (.object members) "action_id" <;> cases text (.object members) "src_url" <;>
    cases text (.object members) "callback_url" <;> cases text (.object members) "table" <;>
    cases text (.object members) "file_format" <;> simp

theorem handleDocument_cases (around : Surroundings) (data : Json) :
    (Incomplete data ∧ Answerable data ∧ handleDocument around data =
      .answer around none "success" "parameter missing" "-1") ∨
    (¬ Incomplete data ∧ Answerable data ∧ ∃ task, taskOf data = some task ∧
      handleDocument around data = if around.stopped then .exception else
        .answer around (some task) "success" "OK" "0") ∨
    (¬ Incomplete data ∧ ¬ Answerable data ∧ handleDocument around data = .exception) := by
  cases h : hasAll data required with
  | none =>
    have hno : ¬ Incomplete data := by
      rw [← hasAll_eq_false_iff, h]
      simp
    exact .inr (.inr ⟨hno, not_answerable_of_hasAll h, by simp only [handleDocument, h]⟩)
  | some complete =>
    cases complete with
    | false =>
      have hinc := (hasAll_eq_false_iff data).mp h
      refine .inl ⟨hinc, ?_, by simp only [handleDocument, h]⟩
      cases data with
      | null => trivial
      | object members =>
        obtain ⟨key, hkey, hno⟩ := hinc
        intro hall
        rw [hall key hkey] at hno
        cases hno
      | _ => exact hinc
    | true =>
      have hno : ¬ Incomplete data := by
        rw [← hasAll_eq_false_iff, h]
        simp
      obtain ⟨members, rfl, hall⟩ := (hasAll_eq_true_iff data).mp h
      have hans : Answerable (.object members) ↔ (taskOf (.object members)).isSome = true := by
        rw [taskOf_isSome_iff]
        exact ⟨fun ha ↦ ha hall, fun ha _ ↦ ha⟩
      cases ht : taskOf (.object members) with
      | none =>
        refine .inr (.inr ⟨hno, ?_, by simp only [handleDocument, h, ht]⟩)
        rw [hans, ht]
        simp
      | some task =>
        refine .inr (.inl ⟨hno, hans.mpr (by rw [ht]; rfl), task, rfl, ?_⟩)
        simp only [handleDocument, h, ht]

/-- For a `POST` whose buffers can be allocated, with the pool running: the
handler ends without an exception and sends its reply exactly when the body
has become a text at which the reader does not throw, and the handler can deal with
the value that it leaves. -/
theorem reply_sent_iff (parse : Reader) (around : Surroundings) (prior : Buffer) (body : Str)
    (splits : List ℕ) (halloc : around.allocated = true) (hprint : around.printed = true)
    (hrun : around.stopped = false) :
    (∃ h, calcsigProcess parse around prior ⟨true, body, splits⟩ = some h ∧ h.raised = false ∧
        h.reply.isSome = true) ↔
      ∃ szTemp ok data, document prior splits body = some szTemp ∧
        parse szTemp = some (ok, data) ∧ Answerable data := by
  simp only [calcsigProcess, halloc, Bool.true_eq_false, if_false]
  cases document prior splits body with
  | none => simp
  | some szTemp =>
    cases hparse : parse szTemp with
    | none => simp [hparse, handleValue, Handling.exception]
    | some read =>
      obtain ⟨ok, data⟩ := read
      have hread : (∃ szTemp' ok' data', some szTemp = some szTemp' ∧
          parse szTemp' = some (ok', data') ∧ Answerable data') ↔ Answerable data := by
        constructor
        · rintro ⟨_, ok', data', ⟨⟩, hparse', hans⟩
          rw [hparse] at hparse'
          cases hparse'
          exact hans
        · exact fun hans ↦ ⟨szTemp, ok, data, rfl, hparse, hans⟩
      rw [hread]
      simp only [Option.map_some, hparse, handleValue, Option.some.injEq, exists_eq_left']
      rcases handleDocument_cases around data with
        ⟨-, hans, he⟩ | ⟨-, hans, task, -, he⟩ | ⟨-, hans, he⟩
      · simp [he, hans, Handling.answer, hprint]
      · simp [he, hans, Handling.answer, hprint, hrun]
      · simp [he, hans, Handling.exception]

theorem reply_sent_iff_instance :
    ∃ h, calcsigProcess sampleReader ⟨false, true, true⟩ (bufferAfter [] (by decide))
      ⟨true, "null".toList, []⟩ = some h ∧ h.raised = false ∧ h.reply.isSome = true := by
  apply (reply_sent_iff sampleReader ⟨false, true, true⟩ (bufferAfter [] (by decide)) "null".toList
    [] rfl rfl rfl).mpr
  exact ⟨"null".toList, true, .null, by decide +kernel, rfl, trivial⟩

theorem array_raises :
    calcsigProcess sampleReader ⟨false, true, true⟩ (bufferAfter [] (by decide))
      ⟨true, "[]".toList, []⟩ = some ⟨none, none, true⟩ := by
  decide +kernel

theorem answer_ret_iff (around : Surroundings) (enqueued : Option HttpTask) (status msg ret : String)
    (code : Str) :
    (∃ r, (Handling.answer around enqueued status msg ret).reply = some r ∧ r.ret = code) ↔
      around.printed = true ∧ ret.toList = code := by
  cases hp : around.printed <;> simp [Handling.answer, hp]

/-- A refused document leaves the queue alone and is answered with `-1` exactly
when its reply can be made and the value left behind by the reader lacks a
required member. That it was refused plays no role. -/
theorem malformed_rejected_iff (parse : Reader) (around : Surroundings) (prior : Buffer) (body : Str)
    (splits : List ℕ) (szTemp : Str) (data : Json) (hdoc : document prior splits body = some szTemp)
    (hbad : parse szTemp = some (false, data)) :
    (∃ h, calcsigProcess parse around prior ⟨true, body, splits⟩ = some h ∧ h.enqueued = none ∧
        ∃ r, h.reply = some r ∧ r.ret = "-1".toList) ↔
      around.allocated = true ∧ around.printed = true ∧ Incomplete data := by
  cases halloc : around.allocated with
  | false => simp [calcsigProcess, halloc]
  | true =>
    simp only [calcsigProcess, halloc, Bool.true_eq_false, if_false, hdoc, hbad, Option.map_some,
      handleValue, Option.some.injEq, exists_eq_left', true_and]
    rcases handleDocument_cases around data with ⟨hinc, -, he⟩ | ⟨hinc, -, task, -, he⟩ | ⟨hinc, -, he⟩
    · rw [he, answer_ret_iff]
      exact ⟨fun h ↦ ⟨h.2.1, hinc⟩, fun h ↦ ⟨rfl, h.1, rfl⟩⟩
    · refine iff_of_false ?_ (fun h ↦ hinc h.2)
      rw [he]
      split
      · rintro ⟨-, r, hr, -⟩
        cases hr
      · rintro ⟨hnone, -⟩
        cases hnone
    · refine iff_of_false ?_ (fun h ↦ hinc h.2)
      rw [he]
      rintro ⟨-, r, hr, -⟩
      cases hr

section Sample

def brokenText : Str := "\x7b\"action_id\":\"1\",\"src_url\":\"u\",\"callback_url\":\"c\"".toList

def brokenReader : Reader := fun s ↦
  if s = brokenText then
    some (false, .object [("action_id".toList, .string "1".toList),
      ("src_url".toList, .string "u".toList), ("callback_url".toList, .string "c".toList)])
  else some (false, .null)

theorem malformed_rejected_iff_instance :
    ∃ h, calcsigProcess brokenReader ⟨false, true, true⟩ (bufferAfter [] (by decide))
      ⟨true, "[".toList, []⟩ = some h ∧ h.enqueued = none ∧
        ∃ r, h.reply = some r ∧ r.ret = "-1".toList :=
  (malformed_rejected_iff brokenReader ⟨false, true, true⟩ (bufferAfter [] (by decide)) "[".toList []
    "[".toList .null (by decide +kernel) rfl).mpr ⟨rfl, rfl, trivial⟩

theorem malformed_enqueued :
    (brokenReader brokenText).map Prod.fst = some false ∧
      calcsigProcess brokenReader ⟨false, true, true⟩ (bufferAfter [] (by decide))
          ⟨true, brokenText, []⟩ =
        some ⟨some ⟨"1".toList, "u".toList, [], [], "c".toList⟩,
          some ⟨"success".toList, "OK".toList, "0".toList⟩, false⟩ := by
  decide +kernel

end Sample

end Calcsig.Server.RequestOutcome
