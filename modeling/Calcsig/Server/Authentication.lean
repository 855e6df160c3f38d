import Calcsig.Server.TaskFlow
import Calcsig.Utils.ContentSignature

namespace Calcsig.Server.Authentication

open Foundation.Text Foundation.Documents Foundation.Runs Utils.ContentSignature
open Worker Request TaskFlow ThreadPool.Model

variable {Ctx ι : Type}

def bytesOf (s : Str) : Bytes := s.map (fun c ↦ UInt8.ofNat c.toNat)

def hexByte (b : UInt8) : Str := [Nat.digitChar (b.toNat / 16), Nat.digitChar (b.toNat % 16)]

/-- `strcat` into an array of `capacity` characters: `none` where the text and
its final NUL do not fit. -/
def strcat (capacity : ℕ) (buf text : Str) : Option Str :=
  if buf.length + text.length < capacity then some (buf ++ text) else none

def hexLoop (md : Vector UInt8 16) : Option Str :=
  md.toList.foldlM (fun buf b ↦ strcat 33 buf (hexByte b)) []

def checkRequestValid (md5 : Digest Ctx) (secretKey timestamps md5sum : Str) : Option Bool :=
  let src := secretKey ++ '_' :: timestamps
  let md := md5.final (md5.update md5.init (bytesOf src))
  (hexLoop md).map (fun buf ↦ md5sum = buf)

theorem foldlM_hexByte (bs : List UInt8) {buf : Str} (h : buf.length + 2 * bs.length < 33) :
    bs.foldlM (fun buf b ↦ strcat 33 buf (hexByte b)) buf = some (buf ++ bs.flatMap hexByte) := by
  induction bs generalizing buf with
  | nil => simp
  | cons b bs ih =>
    simp only [List.length_cons] at h
    have hfits : strcat 33 buf (hexByte b) = some (buf ++ hexByte b) :=
      if_pos (by simp only [hexByte, List.length_cons, List.length_nil]; omega)
    have hroom : (buf ++ hexByte b).length + 2 * bs.length < 33 := by
      simp only [hexByte, List.length_append, List.length_cons, List.length_nil]
      omega
    rw [List.foldlM_cons, hfits, List.flatMap_cons, ← List.append_assoc]
    exact ih hroom

theorem hexLoop_eq (md : Vector UInt8 16) : hexLoop md = some (md.toList.flatMap hexByte) :=
  foldlM_hexByte md.toList (by simp)

theorem checkRequestValid_nil (md5 : Digest Ctx) (secretKey timestamps : Str) :
    checkRequestValid md5 secretKey timestamps [] = some false := by
  have hlength (md : Vector UInt8 16) : (md.toList.flatMap hexByte).length = 32 := by
    simp [List.length_flatMap, hexByte]
  have hne (md : Vector UInt8 16) : [] ≠ md.toList.flatMap hexByte := by
    intro h
    have hlen := congrArg List.length h
    rw [hlength] at hlen
    cases hlen
  simp only [checkRequestValid, hexLoop_eq, Option.map_some, hne, decide_false]

/-- The key that the request carries is the right one for its timestamp. -/
def accepted (md5 : Digest Ctx) (secretKey : Str) (parse : Reader) (call : Call ι) : Bool :=
  match (dataOf parse call).bind (text · "timestamp"), (dataOf parse call).bind (text · "pkey") with
  | some timestamp, some pkey => checkRequestValid md5 secretKey timestamp pkey = some true
  | _, _ => false

section Flow

variable [DecidableEq ι] [Fintype ι] (parse : Reader)

def entered (s : Crew ι) : Event ι → List (Call ι)
  | .request call =>
    match (handling parse s.isStopped call.printed call).enqueued with
    | none => []
    | some task => if passes s task call.waiter then [call] else []
  | _ => []

omit [DecidableEq ι] [Fintype ι] in
def taskFrom (call : Call ι) : Option HttpTask := (handling parse false call.printed call).enqueued

theorem acknowledged_eq {s : Crew ι} (h : Staffed s) (e : Event ι) :
    (acknowledged parse s e).map some = (entered parse s e).map (taskFrom parse) := by
  cases e with
  | request call =>
    rw [acknowledged_request, h.running]
    simp only [entered, h.running]
    cases htask : (handling parse false call.printed call).enqueued with
    | none => rfl
    | some task =>
      dsimp only
      split
      · simp [taskFrom, htask]
      · rfl
  | _ => rfl

theorem trace_acknowledged {s : Crew ι} (h : Staffed s) (events : List (Event ι)) :
    (trace (serve parse) (acknowledged parse) s events).map some =
      (trace (serve parse) (entered parse) s events).map (taskFrom parse) := by
  induction events generalizing s with
  | nil => rfl
  | cons e events ih =>
    rw [trace, trace, List.map_append, List.map_append, acknowledged_eq parse h e,
      ih (staffed_serve parse h e)]

theorem trace_returned (events : List (Event ι)) :
    ∃ calls, calls <+: trace (serve parse) (entered parse) Pool.init events ∧
      (trace (serve parse) returned Pool.init events).map some = calls.map (taskFrom parse) := by
  have hfifo := trace_fifo Pool.taskQueue (I := Staffed) (fun _ e h ↦ staffed_serve parse h e)
    (fun _ e h ↦ queue_serve parse h e) staffed_init events
  have htasks := trace_acknowledged parse staffed_init events
  set obtained := trace (serve parse) returned Pool.init events
  set calls := trace (serve parse) (entered parse) Pool.init events
  have hsplit : calls.map (taskFrom parse) =
      obtained.map some ++ (run (serve parse) Pool.init events).taskQueue.map some := by
    rw [← htasks, ← List.map_append, ← hfifo]
    rfl
  refine ⟨calls.take obtained.length, List.take_prefix _ _, ?_⟩
  rw [List.map_take, hsplit, List.take_left' (by simp)]

theorem entered_accepted {C : Call ι → Prop} {events : List (Event ι)}
    (h : Along (serve parse) (fun s e ↦ ∀ call ∈ entered parse s e, C call) Pool.init events) :
    ∀ call ∈ trace (serve parse) (entered parse) Pool.init events, C call := by
  refine run_trace (I := fun _ l ↦ ∀ call ∈ l, C call) (l := []) (fun s l e hl he call hcall ↦ ?_)
    (by simp) h
  rcases List.mem_append.mp hcall with hbefore | hnow
  · exact hl call hbefore
  · exact he call hnow

theorem request_of_entered {s : Crew ι} {events : List (Event ι)} {call : Call ι}
    (h : call ∈ trace (serve parse) (entered parse) s events) : .request call ∈ events := by
  induction events generalizing s with
  | nil => simp [trace] at h
  | cons e events ih =>
    rcases List.mem_append.mp h with hnow | hlater
    · cases e with
      | request call' =>
        simp only [entered] at hnow
        split at hnow
        · cases hnow
        · split at hnow
          · obtain rfl := List.mem_singleton.mp hnow
            exact List.mem_cons_self
          · cases hnow
      | _ => cases hnow
    · exact List.mem_cons_of_mem _ (ih hlater)

/-- Every task a worker has obtained was brought by an accepted request. -/
def AuthenticWork (md5 : Digest Ctx) (secretKey : Str) (events : List (Event ι)) : Prop :=
  ∃ calls, calls <+: trace (serve parse) (entered parse) Pool.init events ∧
    (trace (serve parse) returned Pool.init events).map some = calls.map (taskFrom parse) ∧
    ∀ call ∈ calls, accepted md5 secretKey parse call = true

/-- Nothing in the handler looks at the credentials: the tasks obtained are
those of accepted requests in every run where each request that brings a task
happens to be an accepted one. -/
theorem obtained_tasks_accepted (md5 : Digest Ctx) (secretKey : Str) {events : List (Event ι)}
    (h : Along (serve parse)
      (fun s e ↦ ∀ call ∈ entered parse s e, accepted md5 secretKey parse call = true)
      Pool.init events) :
    AuthenticWork parse md5 secretKey events := by
  obtain ⟨calls, hinitial, htasks⟩ := trace_returned parse events
  refine ⟨calls, hinitial, htasks, fun call hcall ↦ ?_⟩
  exact entered_accepted parse h call (hinitial.subset hcall)

end Flow

section Sample

/-- The digest of "k_5". -/
def keyMd5 : Digest Bytes :=
  { sampleMd5 with
    final := fun ctx ↦
      if ctx = [0x6b, 0x5f, 0x35] then
        #v[0x49, 0x9d, 0x40, 0x1d, 0x47, 0xa2, 0x3f, 0xab, 0xf0, 0x98, 0x45, 0xc9, 0x46, 0x70, 0xb5, 0x7e]
      else sampleMd5.final ctx }

def keyText : Str := "499d401d47a23fabf09845c94670b57e".toList

def signedText : Str :=
  "\x7b\"action_id\":\"1\",\"src_url\":\"u\",\"callback_url\":\"c\",\"timestamp\":\"5\",\"pkey\":\"".toList ++
    keyText ++ "\"\x7d".toList

def signedReader : Reader := fun s ↦
  if s = signedText then
    some (true, .object [("action_id".toList, .string "1".toList),
      ("src_url".toList, .string "u".toList), ("callback_url".toList, .string "c".toList),
      ("timestamp".toList, .string "5".toList), ("pkey".toList, .string keyText)])
  else some (false, .null)

def eventsOf (call : Call Unit) : List (Event Unit) :=
  .request call :: .getTask () :: List.replicate 5 (.next ())

def signedCall : Call Unit := { sampleCall with request := ⟨true, signedText, []⟩ }

theorem obtained_tasks_accepted_instance :
    ∃ calls : List (Call Unit), calls.length = 1 ∧
      ∀ call ∈ calls, accepted keyMd5 "k".toList signedReader call = true := by
  have halong : Along (serve signedReader) (fun s e ↦
      ∀ call ∈ entered signedReader s e, accepted keyMd5 "k".toList signedReader call = true)
      Pool.init (eventsOf signedCall) := by
    decide +kernel
  obtain ⟨calls, -, htasks, haccepted⟩ := obtained_tasks_accepted _ keyMd5 "k".toList halong
  have hone : (trace (serve signedReader) returned Pool.init (eventsOf signedCall)).length = 1 := by
    decide +kernel
  have hlen := congrArg List.length htasks
  rw [List.length_map, List.length_map, hone] at hlen
  exact ⟨calls, hlen.symm, haccepted⟩

theorem accepted_sampleCall (md5 : Digest Ctx) (secretKey : Str) :
    accepted md5 secretKey orderReader sampleCall = false := by
  have htimestamp : (dataOf orderReader sampleCall).bind (text · "timestamp") = some [] := by
    decide +kernel
  have hpkey : (dataOf orderReader sampleCall).bind (text · "pkey") = some [] := by decide +kernel
  simp only [accepted, htimestamp, hpkey, checkRequestValid_nil]
  rfl

/-- A worker obtains the task of a request without credentials, which are right
for no digest and no secret key. -/
theorem unauthenticated_task_obtained :
    ¬ ∃ (md5 : Digest Bytes) (secretKey : Str),
      AuthenticWork orderReader md5 secretKey (eventsOf sampleCall) := by
  rintro ⟨md5, secretKey, calls, hinitial, htasks, haccepted⟩
  have hone : (trace (serve orderReader) returned Pool.init (eventsOf sampleCall)).length = 1 := by
    decide +kernel
  have hlen := congrArg List.length htasks
  rw [List.length_map, List.length_map, hone] at hlen
  obtain ⟨call, rfl⟩ := List.length_eq_one_iff.mp hlen.symm
  have hevent := request_of_entered _ (hinitial.subset (List.mem_singleton_self call))
  obtain rfl : call = sampleCall := by simpa [eventsOf] using hevent
  have hyes := haccepted sampleCall (List.mem_singleton_self _)
  rw [accepted_sampleCall] at hyes
  cases hyes

end Sample

end Calcsig.Server.Authentication
