import Calcsig.Foundation.RedisServer
import Calcsig.Hiredis.Chunks

namespace Calcsig.Hiredis.Replies

open Foundation.Text Foundation.Incremental Foundation.RedisServer Read Chunks

def crlf : Str := ['\r', '\n']

mutual

def encode : Reply → Str
  | .string str => '$' :: (decimal str.length ++ crlf ++ str ++ crlf)
  | .array elements => '*' :: (decimal elements.length ++ crlf ++ encodeAll elements)
  -- the reader keeps the last 32 bits of the count, and `-1` itself stands for nil
  | .hollow missing => '*' :: (rendering (.negSucc missing - 4294967296) ++ crlf)
  | .integer n => ':' :: (rendering n ++ crlf)
  | .nil => '$' :: (rendering (-1) ++ crlf)
  | .status str => '+' :: (str ++ crlf)
  | .error str => '-' :: (str ++ crlf)

def encodeAll : List Reply → Str
  | [] => []
  | reply :: replies => encode reply ++ encodeAll replies

end

mutual

/-- The object that stands for a reply in the client. -/
def object : Reply → Object
  | .string str => .text .string str
  | .array elements => .array elements.length (objects elements)
  | .hollow missing => .array (.negSucc missing) []
  | .integer n => .integer n
  | .nil => .nil
  | .status str => .text .status str
  | .error str => .text .error str

def objects : List Reply → List (Option Object)
  | [] => []
  | reply :: replies => some (object reply) :: objects replies

end

mutual

/-- The replies that the protocol can carry and the client has room for: the
numbers fit, a line is one line, and arrays are nested at most so deep. -/
def Sendable (room : ℕ) : Reply → Prop
  | .string str => str.length < 9223372036854775808
  | .array elements => 0 < room ∧ elements.length < 2147483648 ∧ SendableAll (room - 1) elements
  | .hollow missing => 0 < room ∧ missing < 2147483648
  | .integer n => -9223372036854775808 ≤ n ∧ n < 9223372036854775808
  | .nil => True
  | .status str | .error str => '\r' ∉ str

def SendableAll (room : ℕ) : List Reply → Prop
  | [] => True
  | reply :: replies => Sendable room reply ∧ SendableAll room replies

end

section Numbers

theorem readDigits_digits {ds : Str} (h : ∀ c ∈ ds, c.isDigit = true) (v : ℕ) :
    readDigits v ds = some ((Nat.ofDigitChars 10 ds v : ℕ) : ℤ) := by
  induction ds generalizing v with
  | nil => rfl
  | cons d ds ih =>
    have hd := h d (by simp)
    have hcr : d ≠ '\r' := by
      rintro rfl
      exact absurd hd (by decide)
    rw [readDigits, if_neg hcr, if_pos hd, Nat.ofDigitChars_cons]
    have hcast : ((v : ℤ) * 10 + (d.toNat - '0'.toNat : ℕ)) =
        ((10 * v + (d.toNat - '0'.toNat) : ℕ) : ℤ) := by
      push_cast
      rw [Int.mul_comm]
    rw [hcast, ih (fun c hc ↦ h c (by simp [hc]))]

theorem readLongLong_digits {ds : Str} (h : ∀ c ∈ ds, c.isDigit = true) :
    readLongLong ds = asLong ((Nat.ofDigitChars 10 ds 0 : ℕ) : ℤ) := by
  have hread : readDigits 0 ds = some ((Nat.ofDigitChars 10 ds 0 : ℕ) : ℤ) := readDigits_digits h 0
  unfold readLongLong
  split
  · exact absurd (h '-' (by simp)) (by decide)
  · exact absurd (h '+' (by simp)) (by decide)
  · rw [hread, Option.elim_some]

theorem asLong_of_fits {n : ℤ} (hlow : -9223372036854775808 ≤ n) (hhigh : n < 9223372036854775808) :
    asLong n = n := by
  rw [asLong, Int.bmod_def]
  omega

theorem asInt_of_fits {n : ℤ} (hlow : -2147483648 ≤ n) (hhigh : n < 2147483648) : asInt n = n := by
  rw [asInt, Int.bmod_def]
  omega

theorem readLongLong_decimal {n : ℕ} (h : n < 9223372036854775808) : readLongLong (decimal n) = n := by
  rw [readLongLong_digits (fun _ ↦ isDigit_of_mem_decimal), ofDigitChars_decimal]
  exact asLong_of_fits (by omega) (by omega)

theorem readLongLong_rendering {n : ℤ} (hlow : -9223372036854775808 ≤ n)
    (hhigh : n < 9223372036854775808) : readLongLong (rendering n) = n := by
  unfold rendering
  split
  · have hread : readDigits 0 (decimal n.natAbs) = some ((Nat.ofDigitChars 10 (decimal n.natAbs) 0 : ℕ) : ℤ) :=
      readDigits_digits (fun _ ↦ isDigit_of_mem_decimal) 0
    rw [readLongLong, hread, ofDigitChars_decimal, Option.elim_some,
      asLong_of_fits (by omega) (by omega)]
    omega
  · rw [readLongLong_decimal (by omega)]
    omega

end Numbers

section Lines

theorem seekNewline_line {line : Str} (h : '\r' ∉ line) (rest : Str) :
    seekNewline (line ++ (crlf ++ rest)) = some line.length := by
  induction line with
  | nil => rfl
  | cons c line ih =>
    have hc : c ≠ '\r' := fun hc ↦ h (by simp [hc])
    rw [List.cons_append, seekNewline, ih (fun hmem ↦ h (by simp [hmem]))]
    · rfl
    · intro _ hcr
      exact absurd hcr hc

theorem readLine_line {line : Str} (h : '\r' ∉ line) (rest : Str) :
    readLine (line ++ (crlf ++ rest)) = some (line, rest) := by
  rw [readLine, seekNewline_line h]
  simp only [Option.map_some, List.take_left]
  rw [show line.length + 2 = (line ++ crlf).length by simp [crlf], ← List.append_assoc, List.drop_left]

theorem cr_notMem_decimal (n : ℕ) : '\r' ∉ decimal n := notMem_decimal (by decide) n

theorem cr_notMem_rendering (n : ℤ) : '\r' ∉ rendering n := by
  unfold rendering
  split
  · simp only [List.mem_cons, not_or]
    exact ⟨by decide, cr_notMem_decimal _⟩
  · exact cr_notMem_decimal _

end Lines

section Slots

variable {path : List ℕ} {obj obj' : Object} {o : Option Object} {reply : Object}

theorem attach_append (h : attach path obj o = some reply) (path' : List ℕ) (x : Object) :
    attach (path ++ path') x (some reply) =
      (attach path' x (some obj)).bind (fun y ↦ attach path y o) := by
  induction path generalizing o reply with
  | nil =>
    obtain rfl := Option.some.inj h
    simp [attach]
  | cons i path ih =>
    match o, h with
    | some (.array n element), h =>
      obtain ⟨child, hchild, rfl⟩ := Option.map_eq_some_iff.mp h
      obtain ⟨slot, hslot, hattach⟩ := Option.bind_eq_some_iff.mp hchild
      have hlt : i < element.length := (List.getElem?_eq_some_iff.mp hslot).1
      rw [List.cons_append, attach, List.getElem?_set_self hlt, Option.bind_some, ih hattach]
      simp only [attach, hslot, Option.bind_some, List.set_set, Option.map_bind, Function.comp_def]

theorem attach_of_attach (h : attach path obj o = some reply) (obj' : Object) :
    ∃ reply', attach path obj' o = some reply' := by
  induction path generalizing o reply with
  | nil => exact ⟨obj', rfl⟩
  | cons i path ih =>
    match o, h with
    | some (.array n element), h =>
      obtain ⟨child, hchild, -⟩ := Option.map_eq_some_iff.mp h
      obtain ⟨slot, hslot, hattach⟩ := Option.bind_eq_some_iff.mp hchild
      obtain ⟨child', hchild'⟩ := ih hattach
      exact ⟨_, by rw [attach, hslot, Option.bind_some, hchild', Option.map_some]⟩

end Slots

section Reading

def after (rest : Str) (rstack : List Task) (reply : Object) :
    List Object × Except Stop (Tasks × Str) :=
  match rstack with
  | [] => (reply :: (machine.consume root rest).1, (machine.consume root rest).2)
  | _ :: _ => machine.consume ⟨rstack, some reply⟩ rest

variable {cur : Task} {below next : List Task} {o : Option Object} {reply obj : Object} {unread rest : Str}

theorem consume_close (hstep : machine.step ⟨cur :: below, o⟩ unread = emit rest
      (Tasks.close ⟨cur :: below, o⟩ obj))
    (hattach : attach (slots (cur :: below)) obj o = some reply)
    (hmove : moveToNextTask (cur :: below) = some next) :
    machine.consume ⟨cur :: below, o⟩ unread = after rest next reply := by
  rw [Tasks.close, hattach, Option.bind_some, hmove, Option.map_some] at hstep
  cases next with
  | nil => exact Machine.consume_next hstep
  | cons task next => exact Machine.consume_next hstep

theorem close_setType (type : ReplyType) :
    Tasks.close (Tasks.setType ⟨cur :: below, o⟩ type) obj = Tasks.close ⟨cur :: below, o⟩ obj := by
  cases below <;> rfl

theorem step_byte {byte : Char} (type : ReplyType) (hcur : cur.type = none)
    (hbyte : typeOfByte byte = some type) {s : Option Tasks}
    (h : processTyped (Tasks.setType ⟨cur :: below, o⟩ type) type unread = .ofOption rest s) :
    machine.step ⟨cur :: below, o⟩ (byte :: unread) = emit rest s := by
  refine step_ofOption ?_
  rw [resumed_of_ne_nil (List.cons_ne_nil _ _), processItem_cons (by simpa using hcur), hbyte, Option.elim_some]
  exact h

variable {byte : Char} {line : Str}

theorem consume_line (type : ReplyType) (hcur : cur.type = none) (hbyte : typeOfByte byte = some type)
    (htyped : ∀ tasks u, processTyped tasks type u = processLineItem tasks type u)
    (hline : '\r' ∉ line)
    (hobj : obj = if type = .integer then .integer (readLongLong line) else .text type line)
    (hattach : attach (slots (cur :: below)) obj o = some reply)
    (hmove : moveToNextTask (cur :: below) = some next) :
    machine.consume ⟨cur :: below, o⟩ (byte :: (line ++ (crlf ++ rest))) = after rest next reply := by
  refine consume_close (step_byte type hcur hbyte ?_) hattach hmove
  rw [htyped, processLineItem, readLine_line hline, hobj]
  exact congrArg (Item.ofOption rest) (close_setType type)

theorem consume_bulk (hcur : cur.type = none) {str : Str} (hstr : str.length < 9223372036854775808)
    (hattach : attach (slots (cur :: below)) (.text .string str) o = some reply)
    (hmove : moveToNextTask (cur :: below) = some next) :
    machine.consume ⟨cur :: below, o⟩ ('$' :: (decimal str.length ++ (crlf ++ (str ++ (crlf ++ rest))))) =
      after rest next reply := by
  refine consume_close (step_byte .string hcur rfl ?_) hattach hmove
  have hlen : str.length + 2 = (str ++ crlf).length := by simp [crlf]
  rw [processTyped, processBulkItem, readLine_line (cr_notMem_decimal _)]
  simp only [readLongLong_decimal hstr, Int.toNat_natCast, List.take_left]
  rw [if_neg (by omega), if_pos (by simp [crlf]), ← List.append_assoc, hlen, List.drop_left]
  exact congrArg (Item.ofOption rest) (close_setType .string)

theorem consume_nil (hcur : cur.type = none) (hattach : attach (slots (cur :: below)) .nil o = some reply)
    (hmove : moveToNextTask (cur :: below) = some next) :
    machine.consume ⟨cur :: below, o⟩ ('$' :: (rendering (-1) ++ (crlf ++ rest))) =
      after rest next reply := by
  refine consume_close (step_byte .string hcur rfl ?_) hattach hmove
  rw [processTyped, processBulkItem, readLine_line (cr_notMem_rendering _)]
  simp only [readLongLong_rendering (n := -1) (by omega) (by omega)]
  rw [if_pos (by omega)]
  exact congrArg (Item.ofOption rest) (close_setType .string)

theorem step_multi (o : Option Object) (rest : Str) (hcur : cur.type = none)
    (hroom : (cur :: below).length < 9) {n : ℕ} (hn : n < 2147483648) :
    machine.step ⟨cur :: below, o⟩ ('*' :: (decimal n ++ (crlf ++ rest))) = emit rest
      (if 0 < n then Tasks.enter ⟨{ cur with type := some .array } :: below, o⟩ n
      else Tasks.close ⟨cur :: below, o⟩ (.array 0 [])) := by
  refine step_byte .array hcur rfl ?_
  have hdeep : (Tasks.setType ⟨cur :: below, o⟩ .array).rstack.length ≠ 9 := hroom.ne
  rw [processTyped, processMultiBulkItem, if_neg hdeep, readLine_line (cr_notMem_decimal _)]
  simp only [readLongLong_decimal (n := n) (by omega)]
  rw [if_neg (by omega), asInt_of_fits (by omega) (by omega)]
  by_cases hpos : 0 < n
  · rw [if_pos (by omega), if_pos hpos]
    rfl
  · obtain rfl : n = 0 := by omega
    rw [if_neg (by omega), if_neg hpos]
    exact congrArg (Item.ofOption rest) (close_setType .array)

theorem consume_hollow (hcur : cur.type = none) (hroom : (cur :: below).length < 9) {missing : ℕ}
    (hmissing : missing < 2147483648)
    (hattach : attach (slots (cur :: below)) (.array (.negSucc missing) []) o = some reply)
    (hmove : moveToNextTask (cur :: below) = some next) :
    machine.consume ⟨cur :: below, o⟩ ('*' :: (rendering (.negSucc missing - 4294967296) ++ (crlf ++ rest))) =
      after rest next reply := by
  refine consume_close (step_byte .array hcur rfl ?_) hattach hmove
  have hdeep : (Tasks.setType ⟨cur :: below, o⟩ .array).rstack.length ≠ 9 := hroom.ne
  have hcount : asInt (.negSucc missing - 4294967296) = .negSucc missing := by
    rw [asInt, Int.bmod_def]
    omega
  rw [processTyped, processMultiBulkItem, if_neg hdeep, readLine_line (cr_notMem_rendering _)]
  simp only [readLongLong_rendering (n := .negSucc missing - 4294967296) (by omega) (by omega)]
  rw [if_neg (by omega), if_neg (by omega), hcount]
  exact congrArg (Item.ofOption rest) (close_setType .array)

end Reading

section Trees

theorem objects_append (replies replies' : List Reply) :
    objects (replies ++ replies') = objects replies ++ objects replies' := by
  induction replies with
  | nil => rfl
  | cons reply replies ih => rw [List.cons_append, objects, objects, ih, List.cons_append]

theorem length_objects (replies : List Reply) : (objects replies).length = replies.length := by
  induction replies with
  | nil => rfl
  | cons reply replies ih => rw [objects, List.length_cons, ih, List.length_cons]

def partly (done : List Reply) (left : ℕ) : Object :=
  .array (done.length + left : ℕ) (objects done ++ List.replicate left none)

theorem object_array (elements : List Reply) : object (.array elements) = partly elements 0 := by
  simp [object, partly]

theorem attach_partly (done : List Reply) (left : ℕ) (reply : Reply) :
    attach [done.length] (object reply) (some (partly done (left + 1))) =
      some (partly (done ++ [reply]) left) := by
  have hslot : (objects done ++ List.replicate (left + 1) (none : Option Object))[done.length]? = some none := by
    rw [List.getElem?_append_right (length_objects done).le, length_objects, Nat.sub_self]
    rfl
  have hset : (objects done ++ List.replicate (left + 1) (none : Option Object)).set done.length
      (some (object reply)) = objects (done ++ [reply]) ++ List.replicate left none := by
    rw [List.set_append_right _ _ (length_objects done).le, length_objects, Nat.sub_self, objects_append,
      List.append_assoc]
    rfl
  rw [partly, attach, hslot]
  simp only [attach, Option.bind_some, Option.map_some, hset, partly, List.length_append,
    List.length_singleton]
  rw [show done.length + (left + 1) = done.length + 1 + left by omega]

theorem slots_congr {cur cur' : Task} (below : List Task) (h : cur.idx = cur'.idx) :
    slots (cur :: below) = slots (cur' :: below) := by
  cases below with
  | nil => rfl
  | cons prv below => rw [slots, slots, h]

theorem move_congr {cur cur' : Task} (below : List Task) (h : cur.idx = cur'.idx) :
    moveToNextTask (cur :: below) = moveToNextTask (cur' :: below) := by
  cases below with
  | nil => rfl
  | cons prv below => rw [moveToNextTask, moveToNextTask, h]

theorem move_child {cur : Task} (below : List Task) {i n : ℕ} (hcur : cur.type = some .array)
    (hn : cur.elements = n) (hi : i < n) :
    moveToNextTask (⟨none, -1, i⟩ :: cur :: below) =
      if i + 1 = n then moveToNextTask (cur :: below)
      else some (⟨none, -1, (i + 1 : ℕ)⟩ :: cur :: below) := by
  rw [moveToNextTask, if_neg (by simp [hcur]), hn]
  by_cases hlast : i + 1 = n
  · rw [if_pos (show (i : ℤ) = n - 1 by omega), if_pos hlast]
  · rw [if_neg (show ¬ (i : ℤ) = n - 1 by omega), if_neg hlast, if_pos (show (i : ℤ) < n by omega)]
    rfl

mutual

/-- Reading what was written for a reply finishes the current item with the
reply's object. The rest of the stream is left to what comes next. -/
theorem consume_encode (v : Reply) {room : ℕ} (hv : Sendable room v) {cur : Task}
    {below next : List Task} {o : Option Object} {reply : Object} (rest : Str)
    (hcur : cur.type = none) (hroom : below.length + room ≤ 8)
    (hattach : attach (slots (cur :: below)) (object v) o = some reply)
    (hmove : moveToNextTask (cur :: below) = some next) :
    machine.consume ⟨cur :: below, o⟩ (encode v ++ rest) = after rest next reply := by
  cases v with
  | string str =>
    rw [encode]
    simp only [List.cons_append, List.append_assoc]
    exact consume_bulk hcur hv hattach hmove
  | integer n =>
    rw [encode, List.cons_append, List.append_assoc]
    refine consume_line .integer hcur rfl (fun _ _ ↦ rfl) (cr_notMem_rendering n) ?_ hattach hmove
    rw [if_pos rfl, readLongLong_rendering hv.1 hv.2, object]
  | nil =>
    rw [encode, List.cons_append, List.append_assoc]
    exact consume_nil hcur hattach hmove
  | hollow missing =>
    have hdepth : (cur :: below).length < 9 := by
      rw [List.length_cons]
      have := hv.1
      omega
    rw [encode, List.cons_append, List.append_assoc]
    exact consume_hollow hcur hdepth hv.2 hattach hmove
  | status str =>
    rw [encode, List.cons_append, List.append_assoc]
    exact consume_line .status hcur rfl (fun _ _ ↦ rfl) hv rfl hattach hmove
  | error str =>
    rw [encode, List.cons_append, List.append_assoc]
    exact consume_line .error hcur rfl (fun _ _ ↦ rfl) hv rfl hattach hmove
  | array elements =>
    obtain ⟨hpos, hlen, hall⟩ := hv
    have hdepth : (cur :: below).length < 9 := by
      rw [List.length_cons]
      omega
    have hstep := step_multi o (encodeAll elements ++ rest) hcur hdepth hlen
    rw [encode]
    simp only [List.cons_append, List.append_assoc]
    cases elements with
    | nil => exact consume_close hstep hattach hmove
    | cons e todo =>
      obtain ⟨begun, hbegun⟩ := attach_of_attach hattach (partly [] (e :: todo).length)
      let entered : Task := ⟨some .array, (e :: todo).length, cur.idx⟩
      have henter : Tasks.enter ⟨{ cur with type := some .array } :: below, o⟩ (e :: todo).length =
          some ⟨⟨none, -1, (0 : ℕ)⟩ :: entered :: below, some begun⟩ := by
        have hempty : emptyArray ((e :: todo).length : ℤ) = partly [] (e :: todo).length := by
          simp [emptyArray, partly, objects]
        rw [Tasks.enter]
        have hsame : slots ({ cur with type := some .array } :: below) = slots (cur :: below) :=
          slots_congr below rfl
        simp only [hsame]
        rw [hempty, hbegun]
        rfl
      rw [if_pos (show 0 < (e :: todo).length by simp), henter] at hstep
      have hslots : slots (cur :: below) = slots (entered :: below) := slots_congr below rfl
      have hnext : moveToNextTask (entered :: below) = moveToNextTask (cur :: below) := move_congr below rfl
      rw [hslots] at hattach hbegun
      rw [object_array] at hattach
      refine (Machine.consume_next hstep).trans ?_
      exact consume_encodeAll (e :: todo) hall (List.cons_ne_nil _ _) [] rest rfl (by simp [entered])
        (by omega) hbegun hattach (hnext.trans hmove)

theorem consume_encodeAll (todo : List Reply) {room : ℕ} (htodo : SendableAll room todo)
    (hne : todo ≠ []) (done : List Reply) {cur : Task} {below next : List Task} {o : Option Object}
    {begun reply : Object} (rest : Str)
    (hcur : cur.type = some .array) (hn : cur.elements = (done.length + todo.length : ℕ))
    (hroom : below.length + 1 + room ≤ 8)
    (hbegun : attach (slots (cur :: below)) (partly done todo.length) o = some begun)
    (hattach : attach (slots (cur :: below)) (partly (done ++ todo) 0) o = some reply)
    (hmove : moveToNextTask (cur :: below) = some next) :
    machine.consume ⟨⟨none, -1, done.length⟩ :: cur :: below, some begun⟩ (encodeAll todo ++ rest) =
      after rest next reply := by
  cases todo with
  | nil => exact absurd rfl hne
  | cons e todo =>
    obtain ⟨he, htodo⟩ := htodo
    obtain ⟨begun', hbegun'⟩ := attach_of_attach hbegun (partly (done ++ [e]) todo.length)
    have hchild : attach (slots (⟨none, -1, done.length⟩ :: cur :: below)) (object e) (some begun) =
        some begun' := by
      rw [slots, Int.toNat_natCast, attach_append hbegun, List.length_cons, attach_partly,
        Option.bind_some, hbegun']
    have hmove' := move_child below hcur hn
      (show done.length < done.length + (e :: todo).length by simp)
    rw [encodeAll, List.append_assoc]
    cases todo with
    | nil =>
      rw [if_pos (by simp), hmove] at hmove'
      obtain rfl : begun' = reply := Option.some.inj (hbegun'.symm.trans hattach)
      exact consume_encode e he rest rfl (by simpa using hroom) hchild hmove'
    | cons e' todo =>
      rw [if_neg (by simp)] at hmove'
      rw [consume_encode e he _ rfl (by simpa using hroom) hchild hmove']
      have hcount : cur.elements = ((done ++ [e]).length + (e' :: todo).length : ℕ) := by
        rw [hn]
        simp only [List.length_append, List.length_cons, List.length_nil]
        omega
      rw [List.append_cons] at hattach
      have hlater := consume_encodeAll (e' :: todo) htodo (List.cons_ne_nil _ _) (done ++ [e]) rest hcur
        hcount hroom hbegun' hattach hmove
      rwa [List.length_append, List.length_singleton] at hlater

end

theorem consume_stream {replies : List Reply} (h : ∀ reply ∈ replies, Sendable 8 reply) (rest : Str) :
    machine.consume root (replies.flatMap encode ++ rest) =
      (replies.map object ++ (machine.consume root rest).1, (machine.consume root rest).2) := by
  induction replies with
  | nil => rfl
  | cons reply replies ih =>
    have hmove : moveToNextTask [Reader.rootTask] = some [] := rfl
    have hattach : attach (slots [Reader.rootTask]) (object reply) none = some (object reply) := rfl
    rw [List.flatMap_cons, List.append_assoc, root,
      consume_encode reply (h reply (by simp)) _ rfl (by simp) hattach hmove, after,
      ih (fun r hr ↦ h r (by simp [hr]))]
    rfl

theorem consume_replies {replies : List Reply} (h : ∀ reply ∈ replies, Sendable 8 reply) {stream : Str}
    (hstream : stream = replies.flatMap encode) :
    machine.consume root stream = (replies.map object, .ok (root, [])) := by
  have hconsume := consume_stream h []
  rw [List.append_nil, ← hstream, Machine.consume_wait step_root] at hconsume
  simpa only [List.append_nil] using hconsume

theorem consume_reply {reply : Reply} (h : Sendable 8 reply) :
    machine.consume root (encode reply) = ([object reply], .ok (root, [])) := by
  have hall : ∀ r ∈ [reply], Sendable 8 r := by simpa using h
  exact consume_replies hall (by simp)

end Trees

/-- Whatever the chunks in which the bytes of some replies come in, the client
takes out these replies in this order, and nothing is left over. -/
theorem replies_round_trip (replies : List Reply) (h : ∀ reply ∈ replies, Sendable 8 reply)
    (chunks : List Str) (hchunks : chunks.flatten = replies.flatMap encode) :
    (session chunks).1 = replies.map object ∧ (session chunks).2.err = none ∧
      (session chunks).2.unread = [] := by
  exact session_of_consume (consume_replies h hchunks)

theorem replies_round_trip_instance :
    (session ["*2\r".toList, "\n$1\r\na\r\n$-".toList, "1\r\n:-3\r\n".toList]).1 =
        [.array 2 [some (.text .string ['a']), some .nil], .integer (-3)] ∧
      (session ["*2\r".toList, "\n$1\r\na\r\n$-".toList, "1\r\n:-3\r\n".toList]).2.err = none ∧
      (session ["*2\r".toList, "\n$1\r\na\r\n$-".toList, "1\r\n:-3\r\n".toList]).2.unread = [] := by
  refine replies_round_trip [.array [.string ['a'], .nil], .integer (-3)] ?_ _ (by decide +kernel)
  simp [Sendable, SendableAll]

end Calcsig.Hiredis.Replies
