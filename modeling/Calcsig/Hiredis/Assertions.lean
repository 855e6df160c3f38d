import Calcsig.Hiredis.Replies

namespace Calcsig.Hiredis.Assertions

open Foundation.Text Foundation.Incremental Read Chunks Replies

section Lookup

def lookup : List ℕ → Option Object → Option (Option Object)
  | [], o => some o
  | i :: path, some (.array _ element) => element[i]?.bind (lookup path)
  | _ :: _, _ => none

variable {path : List ℕ} {obj reply : Object} {o slot : Option Object}

theorem attach_of_lookup (h : lookup path o = some slot) (obj : Object) :
    ∃ reply, attach path obj o = some reply := by
  induction path generalizing o with
  | nil => exact ⟨obj, rfl⟩
  | cons i path ih =>
    match o, h with
    | some (.array n element), h =>
      obtain ⟨child, hchild, hlookup⟩ := Option.bind_eq_some_iff.mp h
      obtain ⟨reply, hreply⟩ := ih hlookup
      exact ⟨_, by rw [attach, hchild, Option.bind_some, hreply, Option.map_some]⟩

theorem lookup_append (h : lookup path o = some slot) (path' : List ℕ) :
    lookup (path ++ path') o = lookup path' slot := by
  induction path generalizing o with
  | nil =>
    obtain rfl := Option.some.inj h
    rfl
  | cons i path ih =>
    match o, h with
    | some (.array n element), h =>
      obtain ⟨child, hchild, hlookup⟩ := Option.bind_eq_some_iff.mp h
      rw [List.cons_append, lookup, hchild, Option.bind_some, ih hlookup]

theorem lookup_attach (h : attach path obj o = some reply) :
    lookup path (some reply) = some (some obj) := by
  induction path generalizing o reply with
  | nil =>
    obtain rfl := Option.some.inj h
    rfl
  | cons i path ih =>
    match o, h with
    | some (.array n element), h =>
      obtain ⟨child, hchild, rfl⟩ := Option.map_eq_some_iff.mp h
      obtain ⟨slot, hslot, hattach⟩ := Option.bind_eq_some_iff.mp hchild
      have hlt : i < element.length := (List.getElem?_eq_some_iff.mp hslot).1
      rw [lookup, List.getElem?_set_self hlt, Option.bind_some, ih hattach]

theorem lookup_above {n : ℤ} {element : List (Option Object)} {i : ℕ} {path' : List ℕ}
    (hlookup : lookup path o = some (some (.array n element)))
    (h : attach (path ++ i :: path') obj o = some reply) :
    ∃ element', lookup path (some reply) = some (some (.array n element')) ∧
      element'.length = element.length := by
  induction path generalizing o reply with
  | nil =>
    obtain rfl := Option.some.inj hlookup
    obtain ⟨child, -, rfl⟩ := Option.map_eq_some_iff.mp h
    exact ⟨_, rfl, List.length_set⟩
  | cons j path ih =>
    match o, hlookup, h with
    | some (.array m around), hlookup, h =>
      obtain ⟨child, hchild, rfl⟩ := Option.map_eq_some_iff.mp h
      obtain ⟨slot, hslot, hattach⟩ := Option.bind_eq_some_iff.mp hchild
      rw [lookup, hslot, Option.bind_some] at hlookup
      have hlt : j < around.length := (List.getElem?_eq_some_iff.mp hslot).1
      rw [lookup, List.getElem?_set_self hlt, Option.bind_some]
      exact ih hlookup hattach

end Lookup

section Stack

/-- Below each task stands the array that its item goes into, and the reply as far
as it is built has a slot there for it. -/
def Fits (reply : Option Object) : List Task → Prop
  | cur :: prv :: below =>
    prv.type = some .array ∧ 0 ≤ cur.idx ∧ cur.idx < prv.elements ∧
      (∃ element, lookup (slots (prv :: below)) reply = some (some (.array prv.elements element)) ∧
        (element.length : ℤ) = prv.elements) ∧
      Fits reply (prv :: below)
  | _ => True

variable {cur cur' : Task} {below rstack : List Task} {o : Option Object} {obj reply : Object}

theorem Fits.congr (h : Fits o (cur :: below)) (hidx : cur'.idx = cur.idx) : Fits o (cur' :: below) := by
  cases below with
  | nil => trivial
  | cons prv below =>
    rw [Fits, hidx]
    exact h

theorem Fits.slot (h : Fits o rstack) : ∃ slot, lookup (slots rstack) o = some slot := by
  match rstack, h with
  | [], _ => exact ⟨o, rfl⟩
  | [_], _ => exact ⟨o, rfl⟩
  | cur :: prv :: below, h =>
    obtain ⟨-, hlow, hhigh, ⟨element, hlookup, hlen⟩, -⟩ := h
    have hlt : cur.idx.toNat < element.length := by omega
    exact ⟨element[cur.idx.toNat], by
      rw [slots, lookup_append hlookup, lookup, List.getElem?_eq_getElem hlt]; rfl⟩

theorem Fits.attach (h : Fits o rstack) {path : List ℕ}
    (hattach : attach (slots rstack ++ path) obj o = some reply) : Fits (some reply) rstack := by
  induction rstack generalizing path with
  | nil => trivial
  | cons cur rstack ih =>
    cases rstack with
    | nil => trivial
    | cons prv below =>
      obtain ⟨htype, hlow, hhigh, ⟨element, hlookup, hlen⟩, hbelow⟩ := h
      rw [slots, List.append_assoc] at hattach
      obtain ⟨element', hlookup', hlen'⟩ := lookup_above hlookup hattach
      exact ⟨htype, hlow, hhigh, ⟨element', hlookup', by rw [hlen', hlen]⟩, ih hbelow hattach⟩

theorem Fits.attached (h : Fits o rstack) (hattach : Read.attach (slots rstack) obj o = some reply) :
    Fits (some reply) rstack := by
  rw [← List.append_nil (slots rstack)] at hattach
  exact h.attach hattach

theorem Fits.move (h : Fits o rstack) : ∃ next, moveToNextTask rstack = some next ∧ Fits o next ∧
    next.head?.bind Task.type = none := by
  induction rstack with
  | nil => exact ⟨[], rfl, trivial, rfl⟩
  | cons cur rstack ih =>
    cases rstack with
    | nil => exact ⟨[], rfl, trivial, rfl⟩
    | cons prv below =>
      obtain ⟨htype, hlow, hhigh, hslot, hbelow⟩ := h
      rw [moveToNextTask, if_neg (fun hne ↦ hne htype)]
      by_cases hlast : cur.idx = prv.elements - 1
      · rw [if_pos hlast]
        exact ih hbelow
      · rw [if_neg hlast, if_pos hhigh]
        refine ⟨_, rfl, ⟨htype, ?_, ?_, hslot, hbelow⟩, rfl⟩
        · change 0 ≤ cur.idx + 1
          omega
        · change cur.idx + 1 < prv.elements
          omega

end Stack

section Steps

/-- The tasks between two items. -/
structure Ready (tasks : Tasks) : Prop where
  fits : Fits tasks.reply tasks.rstack
  untyped : tasks.rstack.head?.bind Task.type = none

variable {cur : Task} {below : List Task} {o : Option Object} {tasks : Tasks} {type : ReplyType}
  {unread rest : Str}

theorem ready_close (h : Fits tasks.reply tasks.rstack) (obj : Object) :
    ∃ tasks', tasks.close obj = some tasks' ∧ Ready tasks' := by
  obtain ⟨slot, hslot⟩ := h.slot
  obtain ⟨reply, hreply⟩ := attach_of_lookup hslot obj
  obtain ⟨next, hnext, hfits, huntyped⟩ := (h.attached hreply).move
  exact ⟨⟨next, some reply⟩, by rw [Tasks.close, hreply, Option.bind_some, hnext, Option.map_some],
    hfits, huntyped⟩

theorem ready_enter (h : Fits o (cur :: below)) (hcur : cur.type = some .array) {n : ℤ} (hn : 0 < n) :
    ∃ tasks', Tasks.enter ⟨cur :: below, o⟩ n = some tasks' ∧ Ready tasks' := by
  obtain ⟨slot, hslot⟩ := h.slot
  obtain ⟨reply, hreply⟩ := attach_of_lookup hslot (emptyArray n)
  have hentered : Fits (some reply) ({ cur with elements := n } :: below) :=
    (h.attached hreply).congr rfl
  have hslots : slots ({ cur with elements := n } :: below) = slots (cur :: below) := slots_congr below rfl
  have henter : Tasks.enter ⟨cur :: below, o⟩ n =
      some ⟨⟨none, -1, 0⟩ :: { cur with elements := n } :: below, some reply⟩ := by
    simp only [Tasks.enter, hreply, Option.map_some]
  refine ⟨_, henter, ⟨hcur, le_rfl, hn, ?_, hentered⟩, rfl⟩
  refine ⟨List.replicate n.toNat none, ?_, ?_⟩
  · rw [hslots, lookup_attach hreply]
    rfl
  · rw [List.length_replicate]
    exact Int.toNat_of_nonneg hn.le

/-- A pass over an item does not end the process, and what it leaves behind is in
order again. -/
def Secure : Item → Prop
  | .ok tasks _ => Ready tasks
  | .more _ _ => True
  | .stop s => s ≠ .crash

theorem secure_ofOption {o : Option Tasks} (h : ∃ tasks, o = some tasks ∧ Ready tasks) :
    Secure (.ofOption rest o) := by
  obtain ⟨tasks, rfl, hready⟩ := h
  exact hready

theorem secure_line (h : Fits tasks.reply tasks.rstack) : Secure (processLineItem tasks type unread) := by
  rw [processLineItem]
  cases readLine unread with
  | none => trivial
  | some p => exact secure_ofOption (ready_close h _)

theorem secure_bulk (h : Fits tasks.reply tasks.rstack) : Secure (processBulkItem tasks unread) := by
  rw [processBulkItem]
  cases readLine unread with
  | none => trivial
  | some p =>
    dsimp only
    split
    · exact secure_ofOption (ready_close h _)
    · split
      · exact secure_ofOption (ready_close h _)
      · trivial

theorem secure_multi (h : Fits o (cur :: below)) (hcur : cur.type = some .array)
    (hcount : ∀ line rest, readLine unread = some (line, rest) → readLongLong line < 2147483648) :
    Secure (processMultiBulkItem ⟨cur :: below, o⟩ unread) := by
  rw [processMultiBulkItem]
  split
  · exact Stop.noConfusion
  · cases hline : readLine unread with
    | none => trivial
    | some p =>
      obtain ⟨line, rest⟩ := p
      refine secure_ofOption ?_
      split
      · exact ready_close h _
      · split
        · rename_i hpos
          rw [asInt_of_fits (by omega) (hcount line rest hline)]
          exact ready_enter h hcur hpos
        · exact ready_close h _

theorem readLine_eq {s line rest : Str} (h : readLine s = some (line, rest)) :
    s = line ++ (crlf ++ rest) := by
  obtain ⟨n, hn, hs⟩ := Option.map_eq_some_iff.mp h
  obtain ⟨rfl, rfl⟩ := Prod.mk.inj hs
  clear h hs
  induction s using seekNewline.induct generalizing n with
  | case1 s =>
    obtain rfl := Option.some.inj hn
    rfl
  | case2 c s hne ih =>
    rw [seekNewline] at hn
    · obtain ⟨m, hm, rfl⟩ := Option.map_eq_some_iff.mp hn
      rw [List.take_succ_cons, show m + 1 + 2 = m + 2 + 1 by omega, List.drop_succ_cons, List.cons_append, ← ih m hm]
    · exact hne
  | case3 => cases hn

theorem typeOfByte_ne_nil (byte : Char) : typeOfByte byte ≠ some .nil := by
  unfold typeOfByte
  split <;> simp

theorem typeOfByte_array {byte : Char} (h : typeOfByte byte = some .array) : byte = '*' := by
  unfold typeOfByte at h
  split at h <;> simp_all

theorem secure_item (h : Ready ⟨cur :: below, o⟩)
    (hcount : ∀ line, '*' :: (line ++ crlf) <+: unread → readLongLong line < 2147483648) :
    Secure (processItem ⟨cur :: below, o⟩ unread) := by
  cases unread with
  | nil =>
    rw [processItem_nil h.untyped]
    trivial
  | cons byte unread =>
    rw [processItem_cons h.untyped]
    have hfits (type : ReplyType) : Fits o ({ cur with type := some type } :: below) := h.fits.congr rfl
    cases hbyte : typeOfByte byte with
    | none => exact Stop.noConfusion
    | some type =>
      cases type with
      | error => exact secure_line (hfits _)
      | status => exact secure_line (hfits _)
      | integer => exact secure_line (hfits _)
      | string => exact secure_bulk (hfits _)
      | nil => exact absurd hbyte (typeOfByte_ne_nil byte)
      | array =>
        refine secure_multi (hfits _) rfl fun line rest hline ↦ hcount line ?_
        rw [typeOfByte_array hbyte, readLine_eq hline, ← List.append_assoc]
        exact ⟨rest, rfl⟩

end Steps

section Runs

variable {tasks : Tasks} {unread : Str}

theorem ready_root : Ready root := ⟨trivial, rfl⟩

theorem consume_secure (h : Ready tasks) (hne : tasks.rstack ≠ [])
    (hcount : ∀ line, '*' :: (line ++ crlf) <:+: unread → readLongLong line < 2147483648) :
    (machine.consume tasks unread).2 ≠ .error .crash := by
  induction hn : unread.length using Nat.strongRecOn generalizing tasks unread with
  | ind n ih =>
    have hstep : machine.step tasks unread = step tasks unread := rfl
    rw [step, resumed_of_ne_nil hne] at hstep
    have hadvances := advances_item tasks unread
    have hsecure : Secure (processItem tasks unread) := by
      obtain ⟨_ | ⟨cur, below⟩, o⟩ := tasks
      · exact absurd rfl hne
      · exact secure_item h (fun line hline ↦ hcount line hline.isInfix)
    cases hitem : processItem tasks unread with
    | more tasks' rest =>
      rw [hitem] at hstep
      rw [Machine.consume_wait hstep]
      intro hcrash
      cases hcrash
    | stop s =>
      rw [hitem] at hstep hsecure
      rw [Machine.consume_fail hstep]
      intro hcrash
      exact hsecure (Except.error.inj hcrash)
    | ok tasks' rest =>
      rw [hitem] at hstep hsecure hadvances
      have hcount' (line : Str) (hline : '*' :: (line ++ crlf) <:+: rest) :
          readLongLong line < 2147483648 := hcount line (hline.trans hadvances.2.isInfix)
      obtain ⟨_ | ⟨cur, below⟩, reply⟩ := tasks'
      · rw [Machine.consume_next hstep]
        exact ih rest.length (hn ▸ Machine.shrinks (M := machine) hstep) ready_root (List.cons_ne_nil _ _)
          hcount' rfl
      · rw [Machine.consume_next hstep]
        exact ih rest.length (hn ▸ Machine.shrinks (M := machine) hstep) hsecure (List.cons_ne_nil _ _)
          hcount' rfl

end Runs

/-- Whatever bytes the server sends, in whatever chunks, no assertion of the
reader fails and every element it stores has its place, as long as no line that
could open an array counts more elements than an `int` holds. -/
theorem reader_never_crashes (chunks : List Str)
    (hcount : ∀ line, '*' :: (line ++ crlf) <:+: chunks.flatten → readLongLong line < 2147483648) :
    (session chunks).2.err ≠ some .crash := by
  have hsecure := consume_secure ready_root (List.cons_ne_nil _ _) hcount
  have htracks := (session_spec chunks).2
  cases hleft : (machine.consume root chunks.flatten).2 with
  | ok p =>
    rw [hleft] at htracks
    rw [htracks.err]
    exact (Option.some_ne_none _).symm
  | error s =>
    rw [hleft] at htracks hsecure
    rw [show (session chunks).2.err = some s from htracks]
    intro hcrash
    exact hsecure (congrArg Except.error (Option.some.inj hcrash))

theorem reader_never_crashes_instance :
    (session ["*1\r".toList, "\n:7\r\n".toList]).2.err ≠ some .crash := by
  refine reader_never_crashes _ fun line hline ↦ ?_
  obtain ⟨s, t, hst⟩ := hline
  change s ++ '*' :: (line ++ crlf) ++ t = '*' :: "1\r\n:7\r\n".toList at hst
  cases s with
  | nil =>
    have htail : line ++ (crlf ++ t) = "1\r\n:7\r\n".toList := by
      rw [← List.append_assoc]
      exact (List.cons.inj hst).2
    have hline : line = "1\r\n:7\r\n".toList.take line.length := by rw [← htail, List.take_left]
    have hlen : line.length ≤ 7 := by
      have := congrArg List.length htail
      rw [List.length_append] at this
      have hseven : ("1\r\n:7\r\n".toList).length = 7 := by decide
      omega
    have hall : ∀ n < 8, readLongLong ("1\r\n:7\r\n".toList.take n) < 2147483648 := by decide
    rw [hline]
    exact hall line.length (by omega)
  | cons c s =>
    have hmem : '*' ∈ "1\r\n:7\r\n".toList := by
      rw [← (List.cons.inj hst).2]
      simp
    exact absurd hmem (by decide)

-- The count is cut to no elements, so that the first one has no place to go.
example : (session ["*4294967296\r\n:7\r\n".toList]).2.err = some .crash := by decide +kernel

end Calcsig.Hiredis.Assertions
