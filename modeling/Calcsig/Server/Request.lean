import Calcsig.Server.Worker

namespace Calcsig.Server.Request

open Foundation.Text Foundation.Documents Worker

def capacity : ℕ := 2048

/-- The handler's array on the stack, with what earlier calls have left in it. -/
structure Buffer where
  bytes : Str
  size : bytes.length = capacity

/-- How much one `evbuffer_remove` copies: no more than is there and than is
asked for, and something if it can; the list says where it stops earlier. -/
def removeCount (splits : List ℕ) (available requested : ℕ) : ℕ :=
  match splits with
  | [] => min available requested
  | n :: _ => min (min available requested) (n + 1)

def fill : ℕ → List ℕ → Str → ℕ → Str → Str
  | 0, _, szTemp, _, _ => szTemp
  | n + 1, splits, szTemp, offset, input =>
    let nRead := removeCount splits input.length (capacity - offset)
    if nRead = 0 then szTemp
    else fill n splits.tail
      (szTemp.take offset ++ input.take nRead ++ szTemp.drop (offset + nRead))
      (offset + nRead) (input.drop nRead)

/-- The text handed to the reader: the array up to its first NUL. Without one
the read goes on behind the array, which is undefined. -/
def document (prior : Buffer) (splits : List ℕ) (body : Str) : Option Str :=
  let szTemp := fill body.length splits prior.bytes 0 body
  if nul ∈ szTemp then some (cString szTemp) else none

structure Response where
  status : Str
  msg : Str
  ret : Str
deriving DecidableEq

structure Handling where
  enqueued : Option HttpTask
  reply : Option Response
  raised : Bool
deriving DecidableEq

structure Surroundings where
  stopped : Bool
  allocated : Bool
  printed : Bool

structure Posting where
  post : Bool
  body : Str
  splits : List ℕ

def required : List Str := ["action_id".toList, "src_url".toList, "callback_url".toList]

def hasAll (data : Json) : List Str → Option Bool
  | [] => some true
  | key :: keys =>
    match data.isMember key with
    | none => none
    | some false => some false
    | some true => hasAll data keys

def text (data : Json) (key : String) : Option Str := (data.member key.toList).bind Json.asString

def taskOf (data : Json) : Option HttpTask := do
  let actionId ← text data "action_id"
  let srcUrl ← text data "src_url"
  let callbackUrl ← text data "callback_url"
  let table ← text data "table"
  let fileFormat ← text data "file_format"
  return ⟨actionId, srcUrl, fileFormat, table, callbackUrl⟩

def Handling.exception : Handling := ⟨none, none, true⟩

def Handling.answer (around : Surroundings) (enqueued : Option HttpTask) (status msg ret : String) :
    Handling :=
  ⟨enqueued, if around.printed then some ⟨status.toList, msg.toList, ret.toList⟩ else none, false⟩

def handleDocument (around : Surroundings) (data : Json) : Handling :=
  match hasAll data required with
  | none => .exception
  | some false => .answer around none "success" "parameter missing" "-1"
  | some true =>
    match taskOf data with
    | none => .exception
    | some task =>
      if around.stopped then .exception else .answer around (some task) "success" "OK" "0"

/-- What the handler does with the value that the reader leaves behind, if it does
not throw. -/
def handleValue (around : Surroundings) : Option Json → Handling
  | none => .exception
  | some data => handleDocument around data

/-- `none` where the behaviour is undefined. -/
def calcsigProcess (parse : Reader) (around : Surroundings) (prior : Buffer) (request : Posting) :
    Option Handling :=
  if around.allocated = false then some ⟨none, none, false⟩
  else if request.post = false then
    some (.answer around none "fail" "just support get method" "-1")
  else
    (document prior request.splits request.body).map (fun szTemp ↦
      handleValue around ((parse szTemp).map Prod.snd))

theorem removeCount_le (splits : List ℕ) (available requested : ℕ) :
    removeCount splits available requested ≤ available ∧
      removeCount splits available requested ≤ requested := by
  unfold removeCount
  split <;> omega

theorem removeCount_eq_zero {splits : List ℕ} {available requested : ℕ}
    (h : removeCount splits available requested = 0) : min available requested = 0 := by
  unfold removeCount at h
  split at h <;> omega

def overwrite (szTemp : Str) (offset : ℕ) (part : Str) : Str :=
  szTemp.take offset ++ part ++ szTemp.drop (offset + part.length)

section Overwrite

variable {szTemp : Str} {offset : ℕ}

theorem overwrite_nil : overwrite szTemp offset [] = szTemp := by
  simp [overwrite]

theorem length_overwrite {part : Str} (h : offset + part.length ≤ szTemp.length) :
    (overwrite szTemp offset part).length = szTemp.length := by
  simp only [overwrite, List.length_append, List.length_take, List.length_drop]
  omega

theorem overwrite_append (hoffset : offset ≤ szTemp.length) (part next : Str) :
    overwrite (overwrite szTemp offset part) (offset + part.length) next =
      overwrite szTemp offset (part ++ next) := by
  have hfront : (szTemp.take offset ++ part).length = offset + part.length := by
    rw [List.length_append, List.length_take, Nat.min_eq_left hoffset]
  have htake : (overwrite szTemp offset part).take (offset + part.length) = szTemp.take offset ++ part :=
    List.take_left' hfront
  have hdrop : (overwrite szTemp offset part).drop (offset + part.length) =
      szTemp.drop (offset + part.length) := List.drop_left' hfront
  rw [overwrite, htake, ← List.drop_drop, hdrop, List.drop_drop, overwrite, List.length_append,
    List.append_assoc (szTemp.take offset), Nat.add_assoc]

end Overwrite

theorem fill_eq (n : ℕ) (splits : List ℕ) (szTemp : Str) (offset : ℕ) (input : Str)
    (hsize : szTemp.length = capacity) (hoffset : offset ≤ capacity) (hn : input.length ≤ n) :
    fill n splits szTemp offset input = overwrite szTemp offset (input.take (capacity - offset)) := by
  induction n generalizing splits szTemp offset input with
  | zero =>
    obtain rfl : input = [] := List.length_eq_zero_iff.mp (by omega)
    rw [fill, List.take_nil, overwrite_nil]
  | succ n ih =>
    have hle := removeCount_le splits input.length (capacity - offset)
    have hstop : removeCount splits input.length (capacity - offset) = 0 →
        min input.length (capacity - offset) = 0 := removeCount_eq_zero
    generalize hr : removeCount splits input.length (capacity - offset) = r at hle hstop
    have hread : (input.take r).length = r := List.length_take_of_le hle.1
    have hpart : input.take r ++ (input.drop r).take (capacity - (offset + r)) =
        input.take (capacity - offset) := by
      rw [show capacity - offset = r + (capacity - (offset + r)) by omega, List.take_add]
    have hcopy : szTemp.take offset ++ input.take r ++ szTemp.drop (offset + r) =
        overwrite szTemp offset (input.take r) := by
      rw [overwrite, hread]
    rw [fill, hr]
    split
    · rename_i hzero
      have hnil : input.take (capacity - offset) = [] := by
        apply List.length_eq_zero_iff.mp
        rw [List.length_take, Nat.min_comm]
        exact hstop hzero
      rw [hnil, overwrite_nil]
    · have hkept : (overwrite szTemp offset (input.take r)).length = capacity :=
        (length_overwrite (by omega)).trans hsize
      rw [hcopy, ih splits.tail _ (offset + r) (input.drop r) hkept (by omega)
        (by rw [List.length_drop]; omega)]
      have happend := overwrite_append (hoffset.trans hsize.ge) (input.take r)
        ((input.drop r).take (capacity - (offset + r)))
      rwa [hread, hpart] at happend

def Terminated (prior : Buffer) (body : Str) : Prop :=
  body.length < capacity ∧ prior.bytes[body.length]? = some nul

theorem document_iff {body : Str} (hbody : nul ∉ body) (prior : Buffer) (splits : List ℕ) :
    document prior splits body = some body ↔ Terminated prior body := by
  have hfill := fill_eq body.length splits prior.bytes 0 body prior.size (Nat.zero_le _) le_rfl
  simp only [overwrite, List.take_zero, List.nil_append, Nat.sub_zero, Nat.zero_add] at hfill
  simp only [document, hfill]
  rcases Nat.lt_or_ge body.length capacity with hlt | hge
  · rw [List.take_of_length_le hlt.le, cString_append hbody]
    have hhead : (prior.bytes.drop body.length).head? = prior.bytes[body.length]? := List.head?_drop
    have hlen : (prior.bytes.drop body.length).length = capacity - body.length := by
      rw [List.length_drop, prior.size]
    cases hdrop : prior.bytes.drop body.length with
    | nil =>
      rw [hdrop, List.length_nil] at hlen
      omega
    | cons c rest =>
      rw [hdrop, List.head?_cons] at hhead
      by_cases hc : c = nul
      · subst hc
        simp [cString, Terminated, hlt, ← hhead]
      · have hne : ¬ Terminated prior body := by
          intro h
          exact hc (Option.some.inj (hhead.trans h.2))
        have hcut : cString (c :: rest) = c :: cString rest := by simp [cString, hc]
        simp [hne, hcut]
  · have hfull : nul ∉ body.take capacity := fun h ↦ hbody (List.mem_of_mem_take h)
    have hdrop : prior.bytes.drop capacity = [] := List.drop_of_length_le prior.size.le
    rw [List.length_take_of_le hge, hdrop, List.append_nil, if_neg hfull]
    exact iff_of_false (by simp) (fun h ↦ absurd h.1 (by omega))

/-- The reader is handed the body exactly when the array happened to hold a
NUL right behind it; between such requests the array's past plays no role. -/
theorem request_document_iff (parse : Reader) (around : Surroundings) (body : Str)
    (hbody : nul ∉ body) :
    (∀ prior splits, document prior splits body = some body ↔ Terminated prior body) ∧
      ∀ prior prior' splits splits', Terminated prior body → Terminated prior' body →
        calcsigProcess parse around prior ⟨true, body, splits⟩ =
          calcsigProcess parse around prior' ⟨true, body, splits'⟩ := by
  refine ⟨fun prior splits ↦ document_iff hbody prior splits, ?_⟩
  intro prior prior' splits splits' h h'
  simp only [calcsigProcess, (document_iff hbody prior splits).mpr h,
    (document_iff hbody prior' splits').mpr h']

section Sample

def bufferAfter (bytes : Str) (h : bytes.length ≤ capacity) : Buffer where
  bytes := bytes ++ List.replicate (capacity - bytes.length) nul
  size := by
    rw [List.length_append, List.length_replicate]
    omega

def sampleReader : Reader := fun s ↦
  if s = "[]".toList then some (true, .array []) else some (s = "null".toList, .null)

theorem request_document_iff_instance :
    nul ∉ "[]".toList ∧
      document (bufferAfter [] (by decide)) [0] "[]".toList = some "[]".toList ∧
      calcsigProcess sampleReader ⟨false, true, true⟩ (bufferAfter [] (by decide))
          ⟨true, "[]".toList, [0]⟩ =
        calcsigProcess sampleReader ⟨false, true, true⟩ (bufferAfter "[1".toList (by decide))
          ⟨true, "[]".toList, []⟩ := by
  have h := request_document_iff sampleReader ⟨false, true, true⟩ "[]".toList (by decide)
  have hfresh : Terminated (bufferAfter [] (by decide)) "[]".toList :=
    ⟨by decide, by decide +kernel⟩
  have hshort : Terminated (bufferAfter "[1".toList (by decide)) "[]".toList :=
    ⟨by decide, by decide +kernel⟩
  exact ⟨by decide, (h.1 _ [0]).mpr hfresh, h.2 _ _ [0] [] hfresh hshort⟩

theorem stale_bytes_parsed :
    nul ∉ "[]".toList ∧
      document (bufferAfter "[1,2]".toList (by decide)) [] "[]".toList = some "[],2]".toList ∧
      document (bufferAfter "[1,2]".toList (by decide)) [] "[]".toList ≠ some "[]".toList := by
  decide +kernel

end Sample

end Calcsig.Server.Request
