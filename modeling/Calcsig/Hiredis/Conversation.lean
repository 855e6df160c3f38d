import Calcsig.Hiredis.Exchange

namespace Calcsig.Hiredis.Conversation

open Foundation.Text Foundation.Incremental Foundation.RedisServer Read Chunks Replies Commands Exchange

section Idle

def bottom (rstack : List Task) : Option ReplyType := rstack.getLast?.bind Task.type

variable {tasks tasks' : Tasks} {type : ReplyType} {unread rest : Str} {rstack next : List Task}

theorem bottom_move (h : moveToNextTask rstack = some next) : next = [] ∨ bottom next = bottom rstack := by
  induction rstack with
  | nil => exact .inl (Option.some.inj h).symm
  | cons cur rstack ih =>
    cases rstack with
    | nil => exact .inl (Option.some.inj h).symm
    | cons prv below =>
      rw [moveToNextTask] at h
      split at h
      · cases h
      · split at h
        · simpa [bottom] using ih h
        · split at h
          · obtain rfl := Option.some.inj h
            exact .inr (by simp [bottom])
          · cases h

theorem bottom_close {obj : Object} (h : tasks.close obj = some tasks') :
    tasks'.rstack = [] ∨ bottom tasks'.rstack = bottom tasks.rstack := by
  obtain ⟨reply, -, hreply⟩ := Option.bind_eq_some_iff.mp h
  obtain ⟨next, hnext, rfl⟩ := Option.map_eq_some_iff.mp hreply
  exact bottom_move hnext

theorem bottom_enter {elements : ℤ} (h : tasks.enter elements = some tasks') :
    tasks'.rstack = [] ∨ bottom tasks'.rstack = bottom tasks.rstack := by
  obtain ⟨_ | ⟨cur, below⟩, o⟩ := tasks
  · cases h
  · obtain ⟨reply, -, rfl⟩ := Option.map_eq_some_iff.mp h
    cases below <;> exact .inr (by simp [bottom])

theorem ofOption_eq_ok {o : Option Tasks} (h : Item.ofOption unread o = .ok tasks' rest) :
    o = some tasks' := by
  cases o with
  | none => cases h
  | some t => exact congrArg some (Item.ok.inj h).1

theorem bottom_typed (h : processTyped tasks type unread = .ok tasks' rest) :
    tasks'.rstack = [] ∨ bottom tasks'.rstack = bottom tasks.rstack := by
  have hline (h : processLineItem tasks type unread = .ok tasks' rest) :
      tasks'.rstack = [] ∨ bottom tasks'.rstack = bottom tasks.rstack := by
    rw [processLineItem] at h
    cases hread : readLine unread with
    | none => rw [hread] at h; cases h
    | some p => rw [hread] at h; exact bottom_close (ofOption_eq_ok h)
  cases type with
  | error => exact hline h
  | status => exact hline h
  | integer => exact hline h
  | nil => cases h
  | string =>
    rw [processTyped, processBulkItem] at h
    cases hread : readLine unread with
    | none => rw [hread] at h; cases h
    | some p =>
      rw [hread] at h
      dsimp only at h
      split at h
      · exact bottom_close (ofOption_eq_ok h)
      · split at h
        · exact bottom_close (ofOption_eq_ok h)
        · cases h
  | array =>
    rw [processTyped, processMultiBulkItem] at h
    split at h
    · cases h
    · cases hread : readLine unread with
      | none => rw [hread] at h; cases h
      | some p =>
        rw [hread] at h
        have htasks := ofOption_eq_ok h
        split at htasks
        · exact bottom_close htasks
        · split at htasks
          · exact bottom_enter htasks
          · exact bottom_close htasks

/-- In the middle of a reply. -/
structure Busy (tasks : Tasks) : Prop where
  begun : tasks.rstack ≠ []
  typed : bottom tasks.rstack ≠ none

theorem not_busy_root : ¬ Busy root := fun h ↦ h.typed rfl

theorem bottom_setType (type : ReplyType) (h : tasks.rstack ≠ []) :
    bottom (tasks.setType type).rstack = bottom tasks.rstack ∨ bottom (tasks.setType type).rstack = some type := by
  obtain ⟨_ | ⟨cur, below⟩, o⟩ := tasks
  · exact absurd rfl h
  · cases below with
    | nil => exact .inr rfl
    | cons prv below => exact .inl (by simp [Tasks.setType, bottom])

def StaysBusy : Item → Prop
  | .ok tasks _ => tasks.rstack ≠ [] → Busy tasks
  | .more tasks _ => Busy tasks
  | .stop _ => True

theorem staysBusy_typed (h : Busy tasks) (type : ReplyType) (unread : Str) :
    StaysBusy (processTyped tasks type unread) := by
  cases hitem : processTyped tasks type unread with
  | ok tasks' rest =>
    intro hne
    refine ⟨hne, ?_⟩
    rw [(bottom_typed hitem).resolve_left hne]
    exact h.typed
  | more tasks' rest =>
    obtain rfl := begun_of_typed hitem
    exact h
  | stop s => trivial

theorem busy_setType (h : Busy tasks ∨ tasks = root) (type : ReplyType) : Busy (tasks.setType type) := by
  rcases h with h | rfl
  · refine ⟨setType_ne_nil h.begun, ?_⟩
    rcases bottom_setType type h.begun with hsame | hnew
    · rw [hsame]
      exact h.typed
    · rw [hnew]
      exact Option.some_ne_none type
  · exact ⟨List.cons_ne_nil _ _, Option.some_ne_none type⟩

theorem staysBusy_item (h : Busy tasks ∨ tasks = root ∧ unread ≠ []) :
    StaysBusy (processItem tasks unread) := by
  cases htype : tasks.rstack.head?.bind Task.type with
  | some type =>
    rw [processItem_typed htype]
    rcases h with h | ⟨rfl, -⟩
    · exact staysBusy_typed h type unread
    · cases htype
  | none =>
    cases unread with
    | nil =>
      rw [processItem_nil htype]
      exact h.resolve_right (fun hroot ↦ hroot.2 rfl)
    | cons byte unread =>
      rw [processItem_cons htype]
      cases typeOfByte byte with
      | none => trivial
      | some type => exact staysBusy_typed (busy_setType (h.imp id And.left) type) type unread

theorem consume_busy (h : Busy tasks ∨ tasks = root ∧ unread ≠ [])
    (hconsume : machine.consume tasks unread = ([], .ok (tasks', rest))) : Busy tasks' := by
  induction hn : unread.length using Nat.strongRecOn generalizing tasks unread with
  | ind n ih =>
    have hne : tasks.rstack ≠ [] := by
      rcases h with h | ⟨rfl, -⟩
      · exact h.begun
      · exact List.cons_ne_nil _ _
    have hstays := staysBusy_item h
    have hstep : machine.step tasks unread = step tasks unread := rfl
    rw [step, resumed_of_ne_nil hne] at hstep
    cases hitem : processItem tasks unread with
    | more tasks₁ rest₁ =>
      rw [hitem] at hstep hstays
      rw [Machine.consume_wait hstep] at hconsume
      obtain ⟨rfl, rfl⟩ := Prod.mk.inj (Except.ok.inj (Prod.mk.inj hconsume).2)
      exact hstays
    | stop s =>
      rw [hitem] at hstep
      rw [Machine.consume_fail hstep] at hconsume
      cases hconsume
    | ok tasks₁ rest₁ =>
      have hreply := advances_item tasks unread
      rw [hitem] at hstep hstays hreply
      obtain ⟨_ | ⟨cur, below⟩, o⟩ := tasks₁
      · obtain ⟨reply, rfl⟩ := Option.isSome_iff_exists.mp hreply.1
        rw [Machine.consume_next hstep] at hconsume
        cases hconsume
      · rw [Machine.consume_next hstep] at hconsume
        exact ih rest₁.length (hn ▸ Machine.shrinks (M := machine) hstep)
          (.inl (hstays (List.cons_ne_nil _ _))) hconsume rfl

theorem eq_nil_of_idle (h : machine.consume root unread = ([], .ok (root, []))) : unread = [] := by
  by_contra hne
  exact not_busy_root (consume_busy (.inr ⟨rfl, hne⟩) h)

end Idle

section Resuming

variable {input more : Str} {out total : List Object} {tasks : Tasks} {unread rest : Str}

theorem consume_part (h : machine.consume root (input ++ more) = (total, .ok (tasks, unread))) :
    ∃ out tasks' unread', machine.consume root input = (out, .ok (tasks', unread')) ∧
      total = out ++ (machine.consume tasks' (unread' ++ more)).1 ∧
      (machine.consume tasks' (unread' ++ more)).2 = .ok (tasks, unread) := by
  rw [Machine.consume_append] at h
  cases hpart : machine.consume root input with
  | mk out left =>
    rw [hpart] at h
    cases left with
    | ok p =>
      obtain ⟨tasks', unread'⟩ := p
      obtain ⟨htotal, hleft⟩ := Prod.mk.inj h
      exact ⟨out, tasks', unread', rfl, htotal.symm, hleft⟩
    | error s => cases h

theorem consume_extend {tasks' : Tasks} {unread' : Str}
    (h : machine.consume root input = (out, .ok (tasks', unread'))) (more : Str) :
    machine.consume root (input ++ more) =
      (out ++ (machine.consume tasks' (unread' ++ more)).1, (machine.consume tasks' (unread' ++ more)).2) := by
  rw [Machine.consume_append, h]
  rfl

end Resuming

section OneCommand

variable {σ : Type} {answer : σ → List Str → Reply × σ} {w : World σ} {s : σ} {argv : List Str}

/-- Nothing is under way on the connection. -/
structure Clean (w : World σ) (s : σ) : Prop where
  err : w.context.err = none
  obuf : w.context.obuf = []
  reader : At w.context.reader root []
  peer : w.peer = ⟨s, [], root, []⟩

/-- The connection has failed, with the reader in the middle of nothing or of a
reply that will not be finished. -/
structure Dead (w : World σ) : Prop where
  err : w.context.err.isSome
  reader : ∃ tasks unread, At w.context.reader tasks unread ∧
    machine.step tasks unread = .wait tasks unread

def InDoubt (answer : σ → List Str → Reply × σ) (s : σ) (argv : List Str) (w : World σ) : Prop :=
  w.peer.state = s ∨ w.peer.state = (answer s argv).2

theorem getReply_settled {r : Reader} {tasks : Tasks} {unread : Str} (hat : At r tasks unread)
    (hsettled : machine.step tasks unread = .wait tasks unread) :
    ∃ r', r.getReply = (some none, r') ∧ At r' tasks unread := by
  have hconsume := Machine.consume_wait hsettled
  cases got hat (fun _ ↦ hsettled) with
  | reply _ _ _ h => rw [hconsume] at h; cases h
  | @waits r' tasks' rest hget hat' h =>
    obtain ⟨rfl, rfl⟩ := Prod.mk.inj (Except.ok.inj (Prod.mk.inj (hconsume.symm.trans h)).2)
    exact ⟨r', hget, hat'⟩
  | stops _ _ h => rw [hconsume] at h; cases h

/-- A part of the command is written. What the far end has made of it is what it
reads in the bytes so far. -/
structure Sending (answer : σ → List Str → Reply × σ) (s : σ) (argv : List Str) (w : World σ) : Prop where
  nonempty : argv ≠ []
  err : w.context.err = none
  reader : At w.context.reader root []
  sent : ∃ sent out, machine.consume root sent = (out, .ok (w.peer.tasks, w.peer.unread)) ∧
    (w.peer.state, w.peer.outbox) = out.foldl (serve answer) (s, []) ∧
    machine.consume root (sent ++ w.context.obuf) = ([commandObject argv], .ok (root, []))

theorem commandOf_commandObject (argv : List Str) : commandOf (commandObject argv) = some argv := by
  rw [commandObject, commandOf, List.mapM_map]
  induction argv with
  | nil => rfl
  | cons arg argv ih => rw [List.mapM_cons, ih]; rfl

theorem serve_command (h : argv ≠ []) : serve answer (s, []) (commandObject argv) =
    ((answer s argv).2, encode (answer s argv).1) := by
  rw [serve, commandOf_commandObject]
  cases argv with
  | nil => exact absurd rfl h
  | cons name args => rfl

theorem Sending.inDoubt (h : Sending answer s argv w) : InDoubt answer s argv w := by
  obtain ⟨sent, out, hsent, hpeer, htotal⟩ := h.sent
  obtain ⟨out', tasks', unread', hsent', hout, -⟩ := consume_part htotal
  obtain ⟨rfl, -⟩ := Prod.mk.inj (hsent.symm.trans hsent')
  cases out with
  | nil => exact .inl (Prod.mk.inj hpeer).1
  | cons obj out =>
    obtain ⟨rfl, hnil⟩ := List.cons.inj hout
    obtain ⟨rfl, -⟩ := List.append_eq_nil_iff.mp hnil.symm
    rw [List.foldl_cons, List.foldl_nil, serve_command h.nonempty] at hpeer
    exact .inr (Prod.mk.inj hpeer).1

theorem accept_eq {peer : Peer σ} {bytes : Str} {objs : List Object} {tasks : Tasks} {unread : Str}
    (h : machine.consume peer.tasks (peer.unread ++ bytes) = (objs, .ok (tasks, unread))) :
    peer.accept answer bytes =
      ⟨(objs.foldl (serve answer) (peer.state, peer.outbox)).1,
        (objs.foldl (serve answer) (peer.state, peer.outbox)).2, tasks, unread⟩ := by
  rw [Peer.accept, h]

theorem Sending.write (h : Sending answer s argv w) (n : ℕ) :
    Sending answer s argv ⟨{ w.context with obuf := w.context.obuf.drop n },
      w.peer.accept answer (w.context.obuf.take n)⟩ := by
  obtain ⟨sent, out, hsent, hpeer, htotal⟩ := h.sent
  rw [← List.take_append_drop n w.context.obuf, ← List.append_assoc] at htotal
  obtain ⟨out', tasks', unread', hsent', -, -⟩ := consume_part htotal
  have hextend := consume_extend hsent (w.context.obuf.take n)
  obtain ⟨hout, hleft⟩ := Prod.mk.inj (hsent'.symm.trans hextend)
  have hread : machine.consume w.peer.tasks (w.peer.unread ++ w.context.obuf.take n) =
      ((machine.consume w.peer.tasks (w.peer.unread ++ w.context.obuf.take n)).1,
        .ok (tasks', unread')) := Prod.ext rfl hleft.symm
  refine ⟨h.nonempty, h.err, h.reader, sent ++ w.context.obuf.take n, out', ?_, ?_, htotal⟩
  · rw [accept_eq hread]
    exact hsent'
  · rw [accept_eq hread, hout, List.foldl_append, ← hpeer]

/-- The command is written and carried out; a part of the reply is read. -/
structure Awaiting (s : σ) (reply : Reply) (w : World σ) : Prop where
  err : w.context.err = none
  obuf : w.context.obuf = []
  state : w.peer.state = s
  peer : w.peer.tasks = root ∧ w.peer.unread = []
  read : ∃ read tasks unread, read ++ w.peer.outbox = encode reply ∧
    machine.consume root read = ([], .ok (tasks, unread)) ∧ At w.context.reader tasks unread

theorem Sending.sentAll (h : Sending answer s argv w) (hobuf : w.context.obuf = []) :
    Awaiting (answer s argv).2 (answer s argv).1 w := by
  obtain ⟨sent, out, hsent, hpeer, htotal⟩ := h.sent
  rw [hobuf, List.append_nil, hsent] at htotal
  obtain ⟨rfl, hleft⟩ := Prod.mk.inj htotal
  obtain ⟨htasks, hunread⟩ := Prod.mk.inj (Except.ok.inj hleft)
  rw [List.foldl_cons, List.foldl_nil, serve_command h.nonempty] at hpeer
  obtain ⟨hstate, houtbox⟩ := Prod.mk.inj hpeer
  exact ⟨h.err, hobuf, hstate, ⟨htasks, hunread⟩, [], root, [], by rw [houtbox, List.nil_append],
    Machine.consume_wait step_root, h.reader⟩

theorem dead_fail {tasks : Tasks} {unread : Str} (hat : At w.context.reader tasks unread)
    (hsettled : machine.step tasks unread = .wait tasks unread) (failure : Failure) :
    Dead (w.fail failure) := ⟨rfl, tasks, unread, hat, hsettled⟩

def Flushed (answer : σ → List Str → Reply × σ) (s : σ) (argv : List Str) :
    Option Result × World σ × List Sys → Prop
  | (none, w, _) => Awaiting (answer s argv).2 (answer s argv).1 w
  | (some .null, w, _) => Dead w ∧ InDoubt answer s argv w
  | (some .blocked, w, _) => InDoubt answer s argv w
  | (some (.reply _), _, _) => False

theorem flushed (h : Sending answer s argv w) (script : List Sys) :
    Flushed answer s argv (flush answer script w) := by
  induction script generalizing w with
  | nil =>
    rw [flush, if_neg (by simp [h.err])]
    split
    · rename_i hobuf
      exact h.sentAll hobuf
    · exact h.inDoubt
  | cons e script ih =>
    have herr : ¬ w.context.err.isSome = true := by simp [h.err]
    rw [flush, if_neg herr]
    split
    · rename_i hobuf
      exact h.sentAll hobuf
    · rename_i hobuf
      unfold redisBufferWrite
      rw [if_neg herr, if_neg hobuf]
      cases e with
      | done n => exact ih (h.write n)
      | again => exact ih h
      | timeout => exact ⟨dead_fail h.reader step_root _, h.inDoubt⟩
      | closed => exact ⟨dead_fail h.reader step_root _, h.inDoubt⟩
      | failed => exact ⟨dead_fail h.reader step_root _, h.inDoubt⟩

def Ended (answer : σ → List Str → Reply × σ) (s : σ) (argv : List Str) :
    Result × World σ × List Sys → Prop
  | (.reply obj, w, _) => obj = object (answer s argv).1 ∧ Clean w (answer s argv).2
  | (.null, w, _) => Dead w ∧ InDoubt answer s argv w
  | (.blocked, w, _) => InDoubt answer s argv w

theorem Awaiting.read_more {reply : Reply} (hreply : Sendable 8 reply) (h : Awaiting s reply w) (n : ℕ) :
    let w' : World σ := ⟨{ w.context with reader := w.context.reader.feed (w.peer.outbox.take n) },
      { w.peer with outbox := w.peer.outbox.drop n }⟩
    (∃ w'', redisGetReplyFromReader w' = (some (some (object reply)), w'') ∧ Clean w'' s) ∨
      ∃ w'', redisGetReplyFromReader w' = (some none, w'') ∧ Awaiting s reply w'' ∧
        w''.peer.outbox = w.peer.outbox.drop n := by
  intro w'
  obtain ⟨read, tasks, unread, htotal, hread, hat⟩ := h.read
  have hsettled := Machine.consume_settled (M := machine) (by rw [hread])
  have hwhole : machine.consume root (read ++ w.peer.outbox.take n ++ w.peer.outbox.drop n) =
      ([object reply], .ok (root, [])) := by
    rw [List.append_assoc, List.take_append_drop, htotal]
    exact consume_reply hreply
  have hextend := consume_extend hread (w.peer.outbox.take n)
  have hat' := at_feed hat (w.peer.outbox.take n)
  have hgot := got hat' (fun hbuf ↦ by
    have hnil : unread ++ w.peer.outbox.take n = [] := by
      rw [← hat'.unread, Reader.unread, hbuf, List.drop_nil]
    obtain ⟨rfl, hchunk⟩ := List.append_eq_nil_iff.mp hnil
    rw [hchunk]
    exact hsettled)
  rw [Machine.consume_append] at hwhole
  cases hgot with
  | @reply obj r' rest hget hat'' _ hconsume =>
    rw [hconsume, List.nil_append] at hextend
    rw [hextend, Machine.resume_cons, Prod.mk.eta, ← Machine.consume_append] at hwhole
    obtain ⟨hout, hleft⟩ := Prod.mk.inj hwhole
    obtain ⟨rfl, hnone⟩ := List.cons.inj hout
    obtain ⟨rfl, houtbox⟩ := List.append_eq_nil_iff.mp (eq_nil_of_idle (Prod.ext hnone hleft))
    refine .inl ⟨⟨{ w.context with reader := r' }, { w.peer with outbox := w.peer.outbox.drop n }⟩, ?_,
      h.err, h.obuf, hat'', ?_⟩
    · rw [redisGetReplyFromReader, hget]
    · change (⟨w.peer.state, w.peer.outbox.drop n, w.peer.tasks, w.peer.unread⟩ : Peer σ) = _
      rw [houtbox, h.state, h.peer.1, h.peer.2]
  | @waits r' tasks' rest hget hat'' hconsume =>
    rw [hconsume] at hextend
    refine .inr ⟨⟨{ w.context with reader := r' }, { w.peer with outbox := w.peer.outbox.drop n }⟩, ?_,
      ⟨h.err, h.obuf, h.state, h.peer, read ++ w.peer.outbox.take n, tasks', rest, ?_, hextend, hat''⟩, rfl⟩
    · rw [redisGetReplyFromReader, hget]
    · rw [List.append_assoc, List.take_append_drop, htotal]
  | stops hget herr hconsume =>
    rw [hextend, hconsume] at hwhole
    cases hwhole

theorem Awaiting.ended {answer : σ → List Str → Reply × σ} (hreply : Sendable 8 (answer s argv).1)
    (h : Awaiting (answer s argv).2 (answer s argv).1 w) (script : List Sys) :
    Ended answer s argv (readReply script w) := by
  induction script generalizing w with
  | nil =>
    rw [readReply, if_neg (by simp [h.err])]
    exact .inr h.state
  | cons e script ih =>
    have herr : ¬ w.context.err.isSome = true := by simp [h.err]
    obtain ⟨read, tasks, unread, htotal, hread, hat⟩ := h.read
    have hsettled := Machine.consume_settled (M := machine) (by rw [hread])
    rw [readReply]
    unfold redisBufferRead
    rw [if_neg herr]
    cases e with
    | done n =>
      rcases h.read_more hreply (min (n + 1) 16384) with ⟨w', hget, hclean⟩ | ⟨w', hget, hawaiting, -⟩
      · simp only [hget]
        exact ⟨rfl, hclean⟩
      · simp only [hget]
        exact ih hawaiting
    | again =>
      obtain ⟨r', hget, hat'⟩ := getReply_settled hat hsettled
      have hfrom : redisGetReplyFromReader w =
          (some none, { w with context := { w.context with reader := r' } }) := by
        rw [redisGetReplyFromReader, hget]
      simp only [hfrom]
      exact ih ⟨h.err, h.obuf, h.state, h.peer, read, tasks, unread, htotal, hread, hat'⟩
    | timeout => exact ⟨dead_fail hat hsettled _, .inr h.state⟩
    | closed => exact ⟨dead_fail hat hsettled _, .inr h.state⟩
    | failed => exact ⟨dead_fail hat hsettled _, .inr h.state⟩

def afterFlush : Option Result × World σ × List Sys → Result × World σ × List Sys
  | (some result, w, script) => (result, w, script)
  | (none, w, script) => readReply script w

theorem Clean.sending (h : Clean w s) (hargv : Fitting argv) :
    ∃ w', Sending answer s argv w' ∧ w'.context.obuf = encode (.array (argv.map .string)) ∧
      ∀ script, redisCommandArgv answer argv script w = afterFlush (flush answer script w') := by
  obtain ⟨r', hget, hat⟩ := getReply_settled h.reader step_root
  refine ⟨⟨⟨w.context.err, w.context.obuf ++ encode (.array (argv.map .string)), r'⟩, w.peer⟩,
    ⟨hargv.1, h.err, hat, [], [], ?_, ?_, ?_⟩, ?_, fun script ↦ ?_⟩
  · rw [h.peer]
    exact Machine.consume_wait step_root
  · rw [h.peer]
    rfl
  · rw [h.obuf, ← object_command]
    exact consume_reply (sendable_command hargv.2)
  · rw [h.obuf]
    rfl
  · rw [redisCommandArgv, format_eq]
    simp only [redisGetReply, redisGetReplyFromReader, hget]
    cases flush answer script _ with
    | mk result rest => cases result <;> rfl

theorem Clean.ended (h : Clean w s) (hargv : Fitting argv) (hreply : Sendable 8 (answer s argv).1)
    (script : List Sys) : Ended answer s argv (redisCommandArgv answer argv script w) := by
  obtain ⟨w', hsending, -, hcommand⟩ := h.sending hargv
  have hflushed := flushed hsending script
  rw [hcommand]
  generalize flush answer script w' = f at hflushed ⊢
  match f, hflushed with
  | (none, w', script'), hawaiting => exact hawaiting.ended hreply script'
  | (some .null, w', script'), hdead => exact hdead
  | (some .blocked, w', script'), hdoubt => exact hdoubt

theorem Dead.ended (answer : σ → List Str → Reply × σ) (h : Dead w) (argv : List Str)
    (script : List Sys) :
    ∃ w', redisCommandArgv answer argv script w = (.null, w', script) ∧ Dead w' ∧ w'.peer = w.peer := by
  obtain ⟨tasks, unread, hat, hsettled⟩ := h.reader
  obtain ⟨r', hget, hat'⟩ := getReply_settled hat hsettled
  have hflush (w' : World σ) (herr : w'.context.err.isSome) :
      flush answer script w' = (some .null, w', script) := by
    cases script <;> rw [flush, if_pos herr]
  refine ⟨⟨⟨w.context.err, w.context.obuf ++ encode (.array (argv.map .string)), r'⟩, w.peer⟩, ?_,
    ⟨h.err, tasks, unread, hat', hsettled⟩, rfl⟩
  rw [redisCommandArgv, format_eq]
  simp only [redisGetReply, redisGetReplyFromReader, hget]
  rw [hflush ⟨⟨w.context.err, _, r'⟩, w.peer⟩ h.err]

end OneCommand

section Conversations

variable {σ : Type} (answer : σ → List Str → Reply × σ)

def stateAfter (s : σ) (commands : List (List Str)) : σ := commands.foldl (fun s argv ↦ (answer s argv).2) s

def repliesTo : σ → List (List Str) → List Reply
  | _, [] => []
  | s, argv :: commands => (answer s argv).1 :: repliesTo (answer s argv).2 commands

variable {answer}

theorem converse_dead {w : World σ} (h : Dead w) (commands : List (List Str)) (script : List Sys) :
    (converse answer commands script w).1 = List.replicate commands.length .null ∧
      (converse answer commands script w).2.peer = w.peer := by
  induction commands generalizing w script with
  | nil => exact ⟨rfl, rfl⟩
  | cons argv commands ih =>
    obtain ⟨w', hcommand, hdead, hpeer⟩ := h.ended answer argv script
    obtain ⟨hresults, hpeer'⟩ := ih hdead script
    rw [converse, hcommand]
    exact ⟨congrArg (Result.null :: ·) hresults, hpeer'.trans hpeer⟩

/-- How a conversation goes from a state of the far end. Some commands have got
their replies. The others have none, and the first of them may have been carried
out all the same. -/
def Ordered (answer : σ → List Str → Reply × σ) (s : σ) (commands : List (List Str))
    (results : List Result) (state : σ) : Prop :=
  ∃ served pending, commands = served ++ pending ∧
    (results = (repliesTo answer s served).map (.reply ∘ object) ++ List.replicate pending.length .null ∨
      pending ≠ [] ∧ results = (repliesTo answer s served).map (.reply ∘ object) ++ [.blocked]) ∧
    (state = stateAfter answer s served ∨
      ∃ argv later, pending = argv :: later ∧ state = stateAfter answer s (served ++ [argv]))

theorem Ordered.cons {s : σ} {argv : List Str} {commands : List (List Str)} {results : List Result}
    {state : σ} (h : Ordered answer (answer s argv).2 commands results state) :
    Ordered answer s (argv :: commands) (.reply (object (answer s argv).1) :: results) state := by
  obtain ⟨served, pending, rfl, hresults, hstate⟩ := h
  refine ⟨argv :: served, pending, rfl, ?_, hstate⟩
  exact hresults.imp (congrArg (Result.reply _ :: ·)) (fun h ↦ ⟨h.1, congrArg (Result.reply _ :: ·) h.2⟩)

theorem ordered_of_inDoubt {w : World σ} {s : σ} {argv : List Str} (commands : List (List Str))
    {results : List Result} (h : InDoubt answer s argv w)
    (hresults : results = List.replicate (argv :: commands).length .null ∨ results = [.blocked]) :
    Ordered answer s (argv :: commands) results w.peer.state :=
  ⟨[], argv :: commands, rfl, hresults.imp id (⟨List.cons_ne_nil _ _, ·⟩),
    h.imp id (⟨argv, commands, rfl, ·⟩)⟩

theorem Clean.ordered {w : World σ} {s : σ} (h : Clean w s) (hreply : ∀ s argv, Sendable 8 (answer s argv).1)
    {commands : List (List Str)} (hcommands : ∀ argv ∈ commands, Fitting argv) (script : List Sys) :
    Ordered answer s commands (converse answer commands script w).1
      (converse answer commands script w).2.peer.state := by
  induction commands generalizing w s script with
  | nil => exact ⟨[], [], rfl, .inl rfl, .inl (by rw [converse, h.peer]; rfl)⟩
  | cons argv commands ih =>
    have hended := h.ended (hcommands argv (by simp)) (hreply s argv) script
    rw [converse]
    generalize redisCommandArgv answer argv script w = ending at hended ⊢
    match ending, hended with
    | (.reply obj, w', script'), ⟨hobj, hclean⟩ =>
      rw [hobj]
      exact (ih hclean (fun a ha ↦ hcommands a (by simp [ha])) script').cons
    | (.null, w', script'), ⟨hdead, hdoubt⟩ =>
      obtain ⟨hresults, hpeer⟩ := converse_dead hdead commands script'
      dsimp only
      rw [hresults, hpeer]
      exact ordered_of_inDoubt commands hdoubt (.inl rfl)
    | (.blocked, w', script'), hdoubt => exact ordered_of_inDoubt commands hdoubt (.inr rfl)

theorem clean_fresh (s : σ) : Clean (World.fresh s) s := ⟨rfl, rfl, at_create, rfl⟩

end Conversations

/-- Whatever the system calls on the socket do, the replies that a client gets are
those to its commands, each to its own and in their order, until the connection
fails. After that no command gets a reply or reaches the far end, and only of the
first one without a reply it is open whether it was carried out. -/
theorem replies_match_commands {σ : Type} (answer : σ → List Str → Reply × σ)
    (hreply : ∀ s argv, Sendable 8 (answer s argv).1) (s : σ) (commands : List (List Str))
    (hcommands : ∀ argv ∈ commands, Fitting argv) (script : List Sys) :
    Ordered answer s commands (converse answer commands script (World.fresh s)).1
      (converse answer commands script (World.fresh s)).2.peer.state :=
  (clean_fresh s).ordered hreply hcommands script

/-- A server that counts its commands, and a connection that breaks in the middle of
the second reply. -/
theorem replies_match_commands_instance :
    let answer : ℕ → List Str → Reply × ℕ := fun n _ ↦ (.status "OK".toList, n + 1)
    let commands : List (List Str) :=
      [["SADD".toList, "k".toList, "a".toList], ["DEL".toList, "k".toList], ["PING".toList]]
    let talk := converse answer commands
      [.done 3, .again, .done 100, .done 100, .done 100, .done 1, .closed] (World.fresh 0)
    Ordered answer 0 commands talk.1 talk.2.peer.state :=
  replies_match_commands _ (fun _ _ ↦ by change '\r' ∉ _; decide) 0 _ (by decide +kernel) _

section Progress

variable {σ : Type} {answer : σ → List Str → Reply × σ} {w : World σ} {s : σ} {argv : List Str}

/-- Every system call moves a byte, if there is one to move. -/
def Productive (script : List Sys) : Prop := ∀ e ∈ script, ∃ n, e = .done (n + 1)

theorem Productive.tail {e : Sys} {script : List Sys} (h : Productive (e :: script)) : Productive script :=
  fun e' he' ↦ h e' (List.mem_cons_of_mem _ he')

theorem Sending.completes (h : Sending answer s argv w) {script : List Sys} (hscript : Productive script)
    (henough : w.context.obuf.length ≤ script.length) :
    ∃ w' script', flush answer script w = (none, w', script') ∧
      Awaiting (answer s argv).2 (answer s argv).1 w' ∧ Productive script' ∧
      script.length ≤ script'.length + w.context.obuf.length := by
  have herr {w : World σ} (h : Sending answer s argv w) : ¬ w.context.err.isSome = true := by simp [h.err]
  induction script generalizing w with
  | nil =>
    have hobuf : w.context.obuf = [] := List.length_eq_zero_iff.mp (Nat.le_zero.mp henough)
    exact ⟨w, [], by rw [flush, if_neg (herr h), if_pos hobuf], h.sentAll hobuf, hscript, by simp⟩
  | cons e script ih =>
    by_cases hobuf : w.context.obuf = []
    · exact ⟨w, e :: script, by rw [flush, if_neg (herr h), if_pos hobuf], h.sentAll hobuf, hscript, by simp⟩
    · obtain ⟨n, rfl⟩ := hscript _ (List.mem_cons_self)
      have hpos := List.length_pos_iff.mpr hobuf
      rw [List.length_cons] at henough
      obtain ⟨w', script', hflush, hawaiting, hscript', hlen⟩ := ih (h.write (n + 1)) hscript.tail
        (by simp only [List.length_drop]; omega)
      refine ⟨w', script', ?_, hawaiting, hscript', ?_⟩
      · rw [flush, if_neg (herr h), if_neg hobuf]
        unfold redisBufferWrite
        rw [if_neg (herr h), if_neg hobuf]
        exact hflush
      · simp only [List.length_drop, List.length_cons] at hlen ⊢
        omega

theorem Awaiting.outbox_ne_nil {reply : Reply} (hreply : Sendable 8 reply) (h : Awaiting s reply w) :
    w.peer.outbox ≠ [] := by
  intro houtbox
  obtain ⟨read, tasks, unread, htotal, hread, -⟩ := h.read
  rw [houtbox, List.append_nil] at htotal
  have hwhole := consume_reply hreply
  rw [← htotal, hread] at hwhole
  cases hwhole

theorem Awaiting.completes {reply : Reply} (hreply : Sendable 8 reply) (h : Awaiting s reply w)
    {script : List Sys} (hscript : Productive script) (henough : w.peer.outbox.length ≤ script.length) :
    ∃ w' script', readReply script w = (.reply (object reply), w', script') ∧ Clean w' s ∧
      Productive script' ∧ script.length ≤ script'.length + w.peer.outbox.length := by
  induction script generalizing w with
  | nil =>
    exact absurd (List.length_eq_zero_iff.mp (Nat.le_zero.mp henough)) (h.outbox_ne_nil hreply)
  | cons e script ih =>
    obtain ⟨n, rfl⟩ := hscript _ (List.mem_cons_self)
    have hpos := List.length_pos_iff.mpr (h.outbox_ne_nil hreply)
    rw [List.length_cons] at henough
    rw [readReply]
    unfold redisBufferRead
    rw [if_neg (by simp [h.err])]
    rcases h.read_more hreply (min (n + 1 + 1) 16384) with ⟨w', hget, hclean⟩ | ⟨w', hget, hawaiting, houtbox⟩
    · simp only [hget]
      exact ⟨w', script, rfl, hclean, hscript.tail, by rw [List.length_cons]; omega⟩
    · have hdrop : w'.peer.outbox.length < w.peer.outbox.length := by
        rw [houtbox, List.length_drop]
        omega
      obtain ⟨w'', script', hread, hclean, hscript', hlen⟩ := ih hawaiting hscript.tail (by omega)
      simp only [hget]
      exact ⟨w'', script', hread, hclean, hscript', by rw [List.length_cons]; omega⟩

def traffic (answer : σ → List Str → Reply × σ) : σ → List (List Str) → ℕ
  | _, [] => 0
  | s, argv :: commands =>
    (encode (.array (argv.map .string))).length + (encode (answer s argv).1).length +
      traffic answer (answer s argv).2 commands

theorem Clean.completes (h : Clean w s) (hargv : Fitting argv) (hreply : Sendable 8 (answer s argv).1)
    {script : List Sys} (hscript : Productive script)
    (henough : (encode (.array (argv.map .string))).length + (encode (answer s argv).1).length ≤ script.length) :
    ∃ w' script', redisCommandArgv answer argv script w = (.reply (object (answer s argv).1), w', script') ∧
      Clean w' (answer s argv).2 ∧ Productive script' ∧
      script.length ≤ script'.length +
        ((encode (.array (argv.map .string))).length + (encode (answer s argv).1).length) := by
  obtain ⟨w₁, hsending, hobuf, hcommand⟩ := h.sending hargv
  obtain ⟨w₂, script₂, hflush, hawaiting, hscript₂, hlen⟩ := hsending.completes hscript (by rw [hobuf]; omega)
  have houtbox : w₂.peer.outbox.length ≤ (encode (answer s argv).1).length := by
    obtain ⟨read, _, _, htotal, -⟩ := hawaiting.read
    rw [← htotal, List.length_append]
    omega
  rw [hobuf] at hlen
  obtain ⟨w₃, script₃, hread, hclean, hscript₃, hlen'⟩ := hawaiting.completes hreply hscript₂ (by omega)
  refine ⟨w₃, script₃, ?_, hclean, hscript₃, by omega⟩
  rw [hcommand, hflush]
  exact hread

end Progress

/-- As long as the system calls on the socket go on moving bytes, every command gets
its reply. -/
theorem conversation_completes {σ : Type} (answer : σ → List Str → Reply × σ)
    (hreply : ∀ s argv, Sendable 8 (answer s argv).1) (s : σ) (commands : List (List Str))
    (hcommands : ∀ argv ∈ commands, Fitting argv) (script : List Sys) (hscript : Productive script)
    (henough : traffic answer s commands ≤ script.length) :
    (converse answer commands script (World.fresh s)).1 =
        (repliesTo answer s commands).map (.reply ∘ object) ∧
      (converse answer commands script (World.fresh s)).2.peer.state = stateAfter answer s commands := by
  suffices h : ∀ w, Clean w s →
      (converse answer commands script w).1 = (repliesTo answer s commands).map (.reply ∘ object) ∧
        (converse answer commands script w).2.peer.state = stateAfter answer s commands from
    h _ (clean_fresh s)
  induction commands generalizing s script with
  | nil => exact fun w hclean ↦ ⟨rfl, by rw [converse, hclean.peer]; rfl⟩
  | cons argv commands ih =>
    intro w hclean
    rw [traffic] at henough
    obtain ⟨w', script', hcommand, hclean', hscript', hlen⟩ :=
      hclean.completes (hcommands argv (by simp)) (hreply s argv) hscript (by omega)
    obtain ⟨hresults, hstate⟩ := ih (answer s argv).2 (fun a ha ↦ hcommands a (by simp [ha])) script'
      hscript' (by omega) w' hclean'
    rw [converse, hcommand]
    exact ⟨congrArg (Result.reply _ :: ·) hresults, hstate⟩

theorem conversation_completes_instance :
    let answer : ℕ → List Str → Reply × ℕ := fun n _ ↦ (.status "OK".toList, n + 1)
    let commands : List (List Str) := [["SADD".toList, "k".toList, "a".toList], ["DEL".toList, "k".toList]]
    let talk := converse answer commands (List.replicate 64 (.done 1)) (World.fresh 0)
    talk.1 = List.replicate 2 (.reply (object (.status "OK".toList))) ∧ talk.2.peer.state = 2 :=
  conversation_completes _ (fun _ _ ↦ by change '\r' ∉ _; decide) 0 _ (by decide +kernel) _
    (fun e he ↦ ⟨0, (List.mem_replicate.mp he).2⟩) (by decide +kernel)

end Calcsig.Hiredis.Conversation
