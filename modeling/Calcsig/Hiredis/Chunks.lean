import Calcsig.Foundation.Incremental
import Calcsig.Hiredis.Read

namespace Calcsig.Hiredis.Chunks

open Foundation.Text Foundation.Incremental Read

section Lines

theorem seekNewline_bound {s : Str} {n : ℕ} (h : seekNewline s = some n) : n + 2 ≤ s.length := by
  induction s using seekNewline.induct generalizing n with
  | case1 s =>
    obtain rfl := Option.some.inj h
    simp
  | case2 c s hne ih =>
    rw [seekNewline] at h
    · obtain ⟨m, hm, rfl⟩ := Option.map_eq_some_iff.mp h
      have := ih hm
      simp only [List.length_cons]
      omega
    · exact hne
  | case3 => cases h

theorem seekNewline_append {s : Str} {n : ℕ} (h : seekNewline s = some n) (more : Str) :
    seekNewline (s ++ more) = some n := by
  induction s using seekNewline.induct generalizing n with
  | case1 s => exact h
  | case2 c s hne ih =>
    rw [seekNewline] at h
    · obtain ⟨m, hm, rfl⟩ := Option.map_eq_some_iff.mp h
      rw [List.cons_append, seekNewline, ih hm]
      · rfl
      · intro rest hc hrest
        cases s with
        | nil => cases hm
        | cons d s =>
          obtain ⟨rfl, -⟩ := List.cons.inj hrest
          exact hne s hc rfl
    · exact hne
  | case3 => cases h

theorem readLine_append {s line rest : Str} (h : readLine s = some (line, rest)) (more : Str) :
    readLine (s ++ more) = some (line, rest ++ more) := by
  obtain ⟨n, hn, hs⟩ := Option.map_eq_some_iff.mp h
  obtain ⟨rfl, rfl⟩ := Prod.mk.inj hs
  have hbound := seekNewline_bound hn
  rw [readLine, seekNewline_append hn]
  simp only [Option.map_some]
  rw [List.take_append_of_le_length (by omega), List.drop_append_of_le_length hbound]

theorem readLine_suffix {s line rest : Str} (h : readLine s = some (line, rest)) :
    rest <:+ s ∧ rest.length < s.length := by
  obtain ⟨n, hn, hs⟩ := Option.map_eq_some_iff.mp h
  obtain ⟨rfl, rfl⟩ := Prod.mk.inj hs
  have hbound := seekNewline_bound hn
  refine ⟨List.drop_suffix _ _, ?_⟩
  rw [List.length_drop]
  omega

end Lines

section Items

variable {tasks tasks' : Tasks} {type : ReplyType} {unread rest : Str} {s : Stop}

theorem reply_of_close {obj : Object} (h : tasks.close obj = some tasks') : tasks'.reply.isSome := by
  obtain ⟨reply, -, hreply⟩ := Option.bind_eq_some_iff.mp h
  obtain ⟨rstack, -, rfl⟩ := Option.map_eq_some_iff.mp hreply
  rfl

theorem reply_of_enter {elements : ℤ} (h : tasks.enter elements = some tasks') :
    tasks'.reply.isSome := by
  obtain ⟨_ | ⟨cur, below⟩, reply⟩ := tasks
  · cases h
  · obtain ⟨reply', -, rfl⟩ := Option.map_eq_some_iff.mp h
    rfl

/-- What a pass over a typed item comes to: it waits where it was, or it has
taken bytes and does the same whatever follows, or it stops. -/
inductive Pass (tasks : Tasks) (type : ReplyType) (unread : Str) : Prop
  | waits (h : processTyped tasks type unread = .more tasks unread)
  | reads {o : Option Tasks} {rest : Str} (replied : ∀ tasks' ∈ o, tasks'.reply.isSome)
      (suffix : rest <:+ unread ∧ rest.length < unread.length)
      (h : ∀ more, processTyped tasks type (unread ++ more) = .ofOption (rest ++ more) o)
  | stops {s : Stop} (h : ∀ more, processTyped tasks type (unread ++ more) = .stop s)

theorem pass_line (h : ∀ u, processTyped tasks type u = processLineItem tasks type u) :
    Pass tasks type unread := by
  cases hline : readLine unread with
  | none => exact .waits (by rw [h, processLineItem, hline])
  | some p =>
    obtain ⟨line, rest⟩ := p
    exact .reads (fun _ hclose ↦ reply_of_close hclose) (readLine_suffix hline) (fun more ↦ by
      rw [h, processLineItem, readLine_append hline])

theorem pass_bulk : Pass tasks .string unread := by
  cases hline : readLine unread with
  | none => exact .waits (by rw [processTyped, processBulkItem, hline])
  | some p =>
    obtain ⟨line, rest⟩ := p
    obtain ⟨hsuffix, hlt⟩ := readLine_suffix hline
    by_cases hneg : readLongLong line < 0
    · exact .reads (fun _ hclose ↦ reply_of_close hclose) ⟨hsuffix, hlt⟩ (fun more ↦ by
        rw [processTyped, processBulkItem, readLine_append hline]
        exact if_pos hneg)
    · by_cases hlen : (readLongLong line).toNat + 2 ≤ rest.length
      · have hdrop : (rest.drop ((readLongLong line).toNat + 2)).length < unread.length := by
          rw [List.length_drop]
          omega
        refine .reads (o := tasks.close (.text .string (rest.take (readLongLong line).toNat)))
          (fun _ hclose ↦ reply_of_close hclose)
          ⟨(List.drop_suffix _ _).trans hsuffix, hdrop⟩ (fun more ↦ ?_)
        rw [processTyped, processBulkItem, readLine_append hline]
        simp only [hneg, if_false, List.length_append, hlen.trans (Nat.le_add_right _ _), if_true]
        rw [List.drop_append_of_le_length hlen, List.take_append_of_le_length (by omega)]
      · refine .waits ?_
        rw [processTyped, processBulkItem, hline]
        simp only [hneg, if_false, hlen]

theorem pass_multi : Pass tasks .array unread := by
  by_cases hdeep : tasks.rstack.length = 9
  · exact .stops (fun more ↦ by rw [processTyped, processMultiBulkItem, if_pos hdeep])
  · cases hline : readLine unread with
    | none => exact .waits (by rw [processTyped, processMultiBulkItem, if_neg hdeep, hline])
    | some p =>
      obtain ⟨line, rest⟩ := p
      refine .reads (fun tasks' htasks ↦ ?_) (readLine_suffix hline) (fun more ↦ by
        rw [processTyped, processMultiBulkItem, if_neg hdeep, readLine_append hline])
      split at htasks
      · exact reply_of_close htasks
      · split at htasks
        · exact reply_of_enter htasks
        · exact reply_of_close htasks

theorem pass_typed (tasks : Tasks) (type : ReplyType) (unread : Str) : Pass tasks type unread := by
  cases type with
  | string => exact pass_bulk
  | array => exact pass_multi
  | integer => exact pass_line (fun _ ↦ rfl)
  | nil => exact .stops (s := .crash) (fun _ ↦ rfl)
  | status => exact pass_line (fun _ ↦ rfl)
  | error => exact pass_line (fun _ ↦ rfl)

theorem processItem_typed (h : tasks.rstack.head?.bind Task.type = some type) (unread : Str) :
    processItem tasks unread = processTyped tasks type unread := by
  unfold processItem
  rw [h]

theorem processItem_nil (h : tasks.rstack.head?.bind Task.type = none) :
    processItem tasks [] = .more tasks [] := by
  unfold processItem
  rw [h]

theorem processItem_cons (h : tasks.rstack.head?.bind Task.type = none) (byte : Char) (rest : Str) :
    processItem tasks (byte :: rest) = (typeOfByte byte).elim (.stop (protocolByte byte))
      (fun type ↦ processTyped (tasks.setType type) type rest) := by
  unfold processItem
  simp only [h]
  cases typeOfByte byte <;> rfl

def Advances (unread : Str) : Item → Prop
  | .ok tasks rest => tasks.reply.isSome ∧ rest <:+ unread
  | .more _ rest => rest <:+ unread
  | .stop _ => True

theorem Advances.mono {item : Item} (h : Advances rest item) (hsuffix : rest <:+ unread) :
    Advances unread item := by
  cases item with
  | ok tasks rest' => exact ⟨h.1, h.2.trans hsuffix⟩
  | more tasks rest' => exact h.trans hsuffix
  | stop s => trivial

theorem advances_typed (tasks : Tasks) (type : ReplyType) (unread : Str) :
    Advances unread (processTyped tasks type unread) := by
  cases pass_typed tasks type unread with
  | waits h =>
    rw [h]
    exact List.suffix_rfl
  | @reads o rest hreplied hsuffix h =>
    have hhere := h []
    rw [List.append_nil, List.append_nil] at hhere
    rw [hhere]
    cases o with
    | none => trivial
    | some tasks' => exact ⟨hreplied tasks' rfl, hsuffix.1⟩
  | stops h =>
    have hhere := h []
    rw [List.append_nil] at hhere
    rw [hhere]
    trivial

theorem advances_item (tasks : Tasks) (unread : Str) : Advances unread (processItem tasks unread) := by
  cases htype : tasks.rstack.head?.bind Task.type with
  | some type =>
    rw [processItem_typed htype]
    exact advances_typed tasks type unread
  | none =>
    cases unread with
    | nil =>
      rw [processItem_nil htype]
      exact List.suffix_rfl
    | cons byte rest =>
      rw [processItem_cons htype]
      cases typeOfByte byte with
      | none => trivial
      | some type => exact (advances_typed _ type rest).mono (List.suffix_cons byte rest)

theorem head_setType (h : tasks.rstack ≠ []) :
    (tasks.setType type).rstack.head?.bind Task.type = some type := by
  obtain ⟨_ | ⟨cur, below⟩, reply⟩ := tasks
  · exact absurd rfl h
  · rfl

end Items

section Machine

def root : Tasks := ⟨[Reader.rootTask], none⟩

def emit (rest : Str) : Option Tasks → Outcome Tasks Char Object Stop
  | some ⟨[], reply⟩ => .next root rest reply
  | some tasks => .next tasks rest none
  | none => .fail .crash

def step (tasks : Tasks) (unread : Str) : Outcome Tasks Char Object Stop :=
  match processItem (Reader.resumed tasks) unread with
  | .ok tasks' rest => emit rest (some tasks')
  | .more tasks' rest => .wait tasks' rest
  | .stop s => .fail s

variable {tasks tasks' : Tasks} {type : ReplyType} {unread rest : Str} {s : Stop}

theorem resumed_ne_nil (tasks : Tasks) : (Reader.resumed tasks).rstack ≠ [] := by
  unfold Reader.resumed
  split
  · exact List.cons_ne_nil _ _
  · assumption

theorem resumed_of_ne_nil (h : tasks.rstack ≠ []) : Reader.resumed tasks = tasks := if_neg h

theorem resumed_resumed (tasks : Tasks) : Reader.resumed (Reader.resumed tasks) = Reader.resumed tasks :=
  resumed_of_ne_nil (resumed_ne_nil tasks)

theorem setType_ne_nil (h : tasks.rstack ≠ []) : (tasks.setType type).rstack ≠ [] := by
  obtain ⟨_ | ⟨cur, below⟩, reply⟩ := tasks
  · exact absurd rfl h
  · exact List.cons_ne_nil _ _

theorem begun_of_typed (h : processTyped tasks type unread = .more tasks' rest) : tasks' = tasks := by
  cases pass_typed tasks type unread with
  | waits hwaits => exact (Item.more.inj (h.symm.trans hwaits)).1
  | @reads o _ _ _ hreads =>
    have hhere := hreads []
    rw [List.append_nil, h] at hhere
    cases o <;> cases hhere
  | stops hstops =>
    have hhere := hstops []
    rw [List.append_nil, h] at hhere
    cases hhere

theorem begun_of_more (hne : tasks.rstack ≠ []) (h : processItem tasks unread = .more tasks' rest) :
    tasks'.rstack ≠ [] := by
  cases htype : tasks.rstack.head?.bind Task.type with
  | some type =>
    rw [processItem_typed htype] at h
    rwa [begun_of_typed h]
  | none =>
    cases unread with
    | nil =>
      rw [processItem_nil htype] at h
      rwa [← (Item.more.inj h).1]
    | cons byte unread =>
      rw [processItem_cons htype] at h
      cases hbyte : typeOfByte byte with
      | none => rw [hbyte] at h; cases h
      | some type =>
        rw [hbyte] at h
        rw [begun_of_typed h]
        exact setType_ne_nil hne

theorem step_ofOption {o : Option Tasks} (h : processItem (Reader.resumed tasks) unread = .ofOption rest o) :
    step tasks unread = emit rest o := by
  rw [step, h]
  cases o <;> rfl

theorem emit_decided {o : Option Tasks} (hshrinks : rest.length < unread.length)
    (h : ∀ more, step tasks (unread ++ more) = emit (rest ++ more) o) : Decided step tasks unread := by
  match o, h with
  | none, h => exact .fail h
  | some ⟨[], reply⟩, h => exact .next hshrinks h
  | some ⟨cur :: below, reply⟩, h => exact .next hshrinks h

theorem typed_decided {begun : Tasks} {read : Str} (hbegun : begun.rstack ≠ [])
    (htype : begun.rstack.head?.bind Task.type = some type) (hread : read.length ≤ unread.length)
    (h : ∀ more, processItem (Reader.resumed tasks) (unread ++ more) =
      processTyped begun type (read ++ more)) : Decided step tasks unread := by
  have hagain (more : Str) : processItem (Reader.resumed begun) (read ++ more) =
      processTyped begun type (read ++ more) := by
    rw [resumed_of_ne_nil hbegun, processItem_typed htype]
  cases pass_typed begun type read with
  | waits hwait =>
    have hhere := h []
    rw [List.append_nil, List.append_nil, hwait] at hhere
    exact .wait (by rw [step, hhere]) (fun more ↦ by rw [step, h, step, hagain])
  | reads _ hsuffix hreads =>
    exact emit_decided (hsuffix.2.trans_le hread) (fun more ↦ step_ofOption ((h more).trans (hreads more)))
  | stops hstops => exact .fail (fun more ↦ by rw [step, h, hstops])

theorem step_decided (tasks : Tasks) (unread : Str) : Decided step tasks unread := by
  have hne := resumed_ne_nil tasks
  cases htype : (Reader.resumed tasks).rstack.head?.bind Task.type with
  | some type => exact typed_decided hne htype le_rfl (fun more ↦ processItem_typed htype _)
  | none =>
    cases unread with
    | nil =>
      have hwait : step tasks [] = .wait (Reader.resumed tasks) [] := by
        rw [step, processItem_nil htype]
      exact .wait hwait (fun more ↦ by rw [step, step, resumed_resumed, List.nil_append])
    | cons byte unread =>
      cases hbyte : typeOfByte byte with
      | none =>
        exact .fail (fun more ↦ by rw [step, List.cons_append, processItem_cons htype, hbyte, Option.elim_none])
      | some type =>
        have hhead : _ = some type := head_setType hne
        refine typed_decided (setType_ne_nil hne) hhead (Nat.le_succ unread.length) ?_
        intro more
        rw [List.cons_append, processItem_cons htype, hbyte, Option.elim_some]

/-- The reader as a machine on a stream of bytes. -/
def machine : Machine Tasks Char Object Stop := ⟨step, step_decided⟩

end Machine

section Refinement

variable {tasks tasks' : Tasks} {unread rest : Str} {s : Stop} {r : Reader}

/-- The passes over the items of a reply, as the machine makes them. -/
inductive Passes (tasks : Tasks) (unread : Str) : Item → Prop
  | ok {reply : Object} {rest : Str} (suffix : rest <:+ unread) (shrinks : rest.length < unread.length)
      (h : machine.consume tasks unread =
        (reply :: (machine.consume root rest).1, (machine.consume root rest).2)) :
      Passes tasks unread (.ok ⟨[], some reply⟩ rest)
  | more {tasks' : Tasks} {rest : Str} (suffix : rest <:+ unread) (begun : tasks'.rstack ≠ [])
      (h : machine.consume tasks unread = ([], .ok (tasks', rest))) :
      Passes tasks unread (.more tasks' rest)
  | stop {s : Stop} (h : machine.consume tasks unread = ([], .error s)) : Passes tasks unread (.stop s)

theorem Passes.mono {item : Item} (hpasses : Passes tasks' rest item) (hsuffix : rest <:+ unread)
    (hlt : rest.length < unread.length)
    (h : machine.consume tasks unread = machine.consume tasks' rest) : Passes tasks unread item := by
  cases hpasses with
  | ok hsuffix' hlt' h' => exact .ok (hsuffix'.trans hsuffix) (hlt'.trans hlt) (h.trans h')
  | more hsuffix' hne h' => exact .more (hsuffix'.trans hsuffix) hne (h.trans h')
  | stop h' => exact .stop (h.trans h')

theorem passes_processItems {n : ℕ} (hn : unread.length < n) (hne : tasks.rstack ≠ []) :
    Passes tasks unread (processItems n tasks unread) := by
  induction n generalizing tasks unread with
  | zero => omega
  | succ n ih =>
    have hadvances := advances_item tasks unread
    have hstep : machine.step tasks unread = step tasks unread := rfl
    rw [step, resumed_of_ne_nil hne] at hstep
    rw [processItems, if_neg hne]
    cases hitem : processItem tasks unread with
    | more tasks' rest =>
      rw [hitem] at hstep hadvances
      exact .more hadvances (begun_of_more hne hitem) (Machine.consume_wait hstep)
    | stop s =>
      rw [hitem] at hstep
      exact .stop (Machine.consume_fail hstep)
    | ok tasks' rest =>
      rw [hitem] at hstep hadvances
      obtain ⟨hreply, hsuffix⟩ := hadvances
      obtain ⟨_ | ⟨cur, below⟩, reply⟩ := tasks'
      · obtain ⟨obj, rfl⟩ := Option.isSome_iff_exists.mp hreply
        have hlt := Machine.shrinks (M := machine) hstep
        cases n with
        | zero => omega
        | succ n => exact .ok hsuffix hlt (Machine.consume_next hstep)
      · have hlt := Machine.shrinks (M := machine) hstep
        exact (ih (show rest.length < n by omega) (List.cons_ne_nil cur below)).mono hsuffix hlt
          (Machine.consume_next (M := machine) hstep)

def drain : ℕ → Reader → List Object × Reader
  | 0, r => ([], r)
  | n + 1, r =>
    match r.getReply with
    | (some (some reply), r') =>
      let later := drain n r'
      (reply :: later.1, later.2)
    | (_, r') => ([], r')

def receive (before : List Object × Reader) (bytes : Str) : List Object × Reader :=
  let r := before.2.feed bytes
  let now := drain (r.unread.length + 1) r
  (before.1 ++ now.1, now.2)

def session (chunks : List Str) : List Object × Reader := chunks.foldl receive ([], .create)

/-- The reader is where the machine is. -/
structure At (r : Reader) (tasks : Tasks) (unread : Str) : Prop where
  err : r.err = none
  tasks : Reader.resumed r.tasks = tasks
  idle : r.tasks.rstack = [] → r.tasks.reply = none
  unread : r.unread = unread
  pos : r.pos ≤ r.buf.length

def Tracks (r : Reader) : Except Stop (Tasks × Str) → Prop
  | .ok (tasks, unread) => At r tasks unread
  | .error s => r.err = some s

theorem at_advanced (hsuffix : rest <:+ r.unread) (herr : r.err = none)
    (hidle : tasks.rstack = [] → tasks.reply = none) :
    At (r.advanced tasks rest) (Reader.resumed tasks) rest := by
  have hlen : rest.length ≤ r.buf.length := hsuffix.length_le.trans (List.drop_suffix _ _).length_le
  have hdrop : r.buf.drop (r.buf.length - rest.length) = rest :=
    (List.suffix_iff_eq_drop.mp (hsuffix.trans (List.drop_suffix _ _))).symm
  unfold Reader.advanced Reader.discard
  split
  · exact ⟨herr, rfl, hidle, hdrop, Nat.zero_le _⟩
  · exact ⟨herr, rfl, hidle, hdrop, Nat.sub_le _ _⟩

theorem step_root : machine.step root [] = .wait root [] := rfl

/-- One call for a reply, from where the machine is: a reply, none as yet, or an
error. -/
inductive Got (r : Reader) (tasks : Tasks) (unread : Str) : Prop
  | reply {reply : Object} {r' : Reader} {rest : Str} (h : r.getReply = (some (some reply), r'))
      (hat : At r' root rest) (shrinks : rest.length < unread.length)
      (consumes : machine.consume tasks unread =
        (reply :: (machine.consume root rest).1, (machine.consume root rest).2))
  | waits {r' : Reader} {tasks' : Tasks} {rest : Str} (h : r.getReply = (some none, r'))
      (hat : At r' tasks' rest) (consumes : machine.consume tasks unread = ([], .ok (tasks', rest)))
  | stops {s : Stop} {r' : Reader} (h : r.getReply = (none, r')) (err : r'.err = some s)
      (consumes : machine.consume tasks unread = ([], .error s))

def handOut (r : Reader) : Item → Option (Option Object) × Reader
  | .stop s => (none, Reader.setError s)
  | .ok tasks rest => (some tasks.reply, r.advanced ⟨tasks.rstack, none⟩ rest)
  | .more tasks rest => (some none, r.advanced tasks rest)

theorem getReply_eq {r : Reader} (herr : r.err = none) (hbuf : r.buf ≠ []) :
    r.getReply = handOut r (processItems (r.unread.length + 1) (Reader.resumed r.tasks) r.unread) := by
  unfold Reader.getReply
  rw [if_neg (by simp [herr]), if_neg hbuf]
  cases processItems (r.unread.length + 1) (Reader.resumed r.tasks) r.unread <;> rfl

theorem got (hat : At r tasks unread)
    (hsettled : r.buf = [] → machine.step tasks unread = .wait tasks unread) : Got r tasks unread := by
  obtain ⟨herr, rfl, hidle, rfl, hpos⟩ := hat
  by_cases hbuf : r.buf = []
  · refine .waits (by simp [Reader.getReply, herr, hbuf]) ⟨herr, rfl, hidle, rfl, hpos⟩ ?_
    exact Machine.consume_wait (hsettled hbuf)
  · have hpasses := passes_processItems (Nat.lt_add_one r.unread.length) (resumed_ne_nil r.tasks)
    have hget := getReply_eq herr hbuf
    generalize processItems (r.unread.length + 1) (Reader.resumed r.tasks) r.unread = item at hpasses hget
    cases hpasses with
    | ok hsuffix hlt h => exact .reply hget (at_advanced hsuffix herr (fun _ ↦ rfl)) hlt h
    | more hsuffix hne h =>
      refine .waits hget ?_ h
      have hat := at_advanced hsuffix herr (fun h ↦ absurd h hne)
      rwa [resumed_of_ne_nil hne] at hat
    | stop h => exact .stops hget rfl h

theorem drain_spec {n : ℕ} (hn : unread.length < n) (hat : At r tasks unread)
    (hsettled : r.buf = [] → machine.step tasks unread = .wait tasks unread) :
    (drain n r).1 = (machine.consume tasks unread).1 ∧
      Tracks (drain n r).2 (machine.consume tasks unread).2 := by
  induction n generalizing r tasks unread with
  | zero => omega
  | succ n ih =>
    cases got hat hsettled with
    | @reply reply r' rest hget hat' hlt h =>
      have hlater := ih (show rest.length < n by omega) hat' (fun hbuf ↦ by
        have hrest : rest = [] := by rw [← hat'.unread, Reader.unread, hbuf, List.drop_nil]
        rw [hrest]
        exact step_root)
      rw [h, drain, hget]
      exact ⟨congrArg (reply :: ·) hlater.1, hlater.2⟩
    | waits hget hat' h =>
      rw [h, drain, hget]
      exact ⟨rfl, hat'⟩
    | stops hget herr h =>
      rw [h, drain, hget]
      exact ⟨rfl, herr⟩

theorem at_create : At .create root [] := ⟨rfl, rfl, fun _ ↦ rfl, rfl, le_rfl⟩

theorem at_feed (hat : At r tasks unread) (bytes : Str) : At (r.feed bytes) tasks (unread ++ bytes) := by
  obtain ⟨herr, htasks, hidle, rfl, hpos⟩ := hat
  have hfeed : r.feed bytes = { r with buf := r.buf ++ bytes } := by simp [Reader.feed, herr]
  rw [hfeed]
  refine ⟨herr, htasks, hidle, List.drop_append_of_le_length hpos, ?_⟩
  rw [List.length_append]
  exact hpos.trans (Nat.le_add_right _ _)

theorem receive_spec {before : List Object × Reader} {m : List Object × Except Stop (Tasks × Str)}
    (hout : before.1 = m.1) (htracks : Tracks before.2 m.2)
    (hsettled : ∀ tasks unread, m.2 = .ok (tasks, unread) →
      machine.step tasks unread = .wait tasks unread) (bytes : Str) :
    (receive before bytes).1 = (machine.resume m bytes).1 ∧
      Tracks (receive before bytes).2 (machine.resume m bytes).2 := by
  obtain ⟨replies, r⟩ := before
  obtain ⟨out, left⟩ := m
  subst hout
  cases left with
  | error s =>
    have hfeed : r.feed bytes = r := if_pos (by rw [show r.err = some s from htracks]; rfl)
    have hget : r.getReply = (none, r) := if_pos (by rw [show r.err = some s from htracks]; rfl)
    simp only [receive, hfeed, drain, hget, Machine.resume, List.append_nil]
    exact ⟨trivial, htracks⟩
  | ok p =>
    obtain ⟨tasks, unread⟩ := p
    have hat := at_feed htracks bytes
    have hlen : (unread ++ bytes).length < (r.feed bytes).unread.length + 1 := by
      rw [hat.unread]
      exact Nat.lt_add_one _
    have hdrain := drain_spec hlen hat (fun hbuf ↦ by
      have hbytes : r.buf ++ bytes = [] := by
        rwa [Reader.feed, if_neg (by rw [htracks.err]; exact Bool.false_ne_true)] at hbuf
      rw [(List.append_eq_nil_iff.mp hbytes).2, List.append_nil]
      exact hsettled tasks unread rfl)
    exact ⟨congrArg (replies ++ ·) hdrain.1, hdrain.2⟩

theorem session_spec (chunks : List Str) :
    (session chunks).1 = (machine.consume root chunks.flatten).1 ∧
      Tracks (session chunks).2 (machine.consume root chunks.flatten).2 := by
  suffices h : ∀ (before : List Object × Reader) (stream : Str),
      before.1 = (machine.consume root stream).1 → Tracks before.2 (machine.consume root stream).2 →
      (chunks.foldl receive before).1 = (machine.feed (machine.consume root stream) chunks).1 ∧
        Tracks (chunks.foldl receive before).2
          (machine.feed (machine.consume root stream) chunks).2 by
    rw [← List.nil_append chunks.flatten, ← Machine.feed_consume]
    exact h ([], .create) [] (by rw [Machine.consume_wait step_root])
      (by rw [Machine.consume_wait step_root]; exact at_create)
  induction chunks with
  | nil => exact fun before stream hout htracks ↦ ⟨hout, htracks⟩
  | cons bytes chunks ih =>
    intro before stream hout htracks
    have hreceive := receive_spec hout htracks (fun _ _ h ↦ Machine.consume_settled h) bytes
    rw [← Machine.consume_append] at hreceive
    rw [List.foldl_cons, Machine.feed, List.foldl_cons, ← Machine.consume_append]
    exact ih _ _ hreceive.1 hreceive.2

theorem session_of_consume {chunks : List Str} {replies : List Object}
    (h : machine.consume root chunks.flatten = (replies, .ok (root, []))) :
    (session chunks).1 = replies ∧ (session chunks).2.err = none ∧ (session chunks).2.unread = [] := by
  have hsession := session_spec chunks
  rw [h] at hsession
  exact ⟨hsession.1, hsession.2.err, hsession.2.unread⟩

theorem err_of_tracks {left : Except Stop (Tasks × Str)} {r' : Reader} (h : Tracks r left)
    (h' : Tracks r' left) : r.err = r'.err := by
  cases left with
  | ok p => exact (At.err h).trans (At.err h').symm
  | error s => exact Eq.trans h (Eq.symm h')

/-- The replies and the error that a stream of bytes leads to do not depend on
how the stream was cut by the network. -/
theorem replies_independent_of_chunks (chunks : List Str) :
    (session chunks).1 = (session [chunks.flatten]).1 ∧
      (session chunks).2.err = (session [chunks.flatten]).2.err := by
  have h := session_spec chunks
  have h' := session_spec [chunks.flatten]
  rw [List.flatten_singleton] at h'
  exact ⟨h.1.trans h'.1.symm, err_of_tracks h.2 h'.2⟩

end Refinement

end Calcsig.Hiredis.Chunks
