import Calcsig.Indexer.Model

namespace Calcsig.Indexer.Queries

open Foundation.TypedStore ObjectPool.Model Model

/-- The selects of the loop over a window of ids. -/
inductive Query
  | window
  | pay (type rid : ℕ)
  | audio (audioSourceId : ℕ)

/-- What comes of a query: the server is gone and cannot be reached again, the query
fails, it has no result set, or it has rows. -/
inductive Answer
  | unreachable
  | failed
  | noResult
  | rows (found : List Row)

/-- The number of rows goes through an `int`. -/
def counted (found : List Row) : List Row := if 0 < int32 found.length then found else []

/-- The rows that a query is taken to have found: none if it fails. -/
def Answer.found : Answer → Except Fault (List Row)
  | .unreachable => .error .noConnection
  | .failed | .noResult => .ok []
  | .rows found => .ok (counted found)

/-- A result object: the rows of the client library that are not fetched yet, if
there is a result set, and the rows that are. -/
structure MysqlResult where
  mResult : Option (List Row)
  mRows : List Row

/-- A connector with the result objects that were made for it, and the number of
queries it was asked. An address is a place among the objects. None of them is
deleted as long as the connector lives. -/
structure Connector where
  results : List MysqlResult
  result : Option ℕ
  asked : ℕ

namespace Connector

def new (c : Connector) (obj : MysqlResult) : Connector :=
  { c with results := c.results ++ [obj], result := some c.results.length }

def execute (answer : ℕ → Query → Answer) (q : Query) (c : Connector) : Except Fault (ℤ × Connector) :=
  let c' := { c with asked := c.asked + 1 }
  match answer c.asked q with
  | .unreachable => .error .noConnection
  | .failed => .ok (-1, c')
  | .noResult => .ok (-1, c'.new ⟨none, []⟩)
  | .rows found => .ok (found.length, c'.new ⟨some found, []⟩)

/-- There is no value where a null pointer is followed. -/
def fetchall (c : Connector) : Option (ℕ × Connector) :=
  c.result.bind (fun res ↦ c.results[res]?.bind (fun obj ↦ obj.mResult.map (fun rows ↦
    (res, { c with results := c.results.set res ⟨some [], obj.mRows ++ rows⟩ }))))

def free (c : Connector) (res : ℕ) : Option Connector :=
  c.results[res]?.map (fun obj ↦ { c with results := c.results.set res { obj with mRows := [] } })

end Connector

/-- How a piece of the program ends: what it has written to the store, and the
exception that ended it. -/
structure Ending where
  writes : List Write
  fault : Option Fault
  connector : Connector

/-- One piece after the other, where `none` stands for an invalid access. -/
def andThen (first : Option Ending) (next : Connector → Option Ending) : Option Ending :=
  first.bind (fun ending ↦
    if ending.fault.isSome then some ending
    else (next ending.connector).map (fun later ↦ { later with writes := ending.writes ++ later.writes }))

def emit (step : Except Fault Write) (c : Connector) : Option Ending :=
  match step with
  | .ok w => some ⟨[w], none, c⟩
  | .error fault => some ⟨[], some fault, c⟩

def skip (c : Connector) : Option Ending := some ⟨[], none, c⟩

/-- The loop over the rows of a result object, which are looked up there in each
round. There is no value if the loop does not end within the given rounds. -/
def walk (body : ℕ → Row → Connector → Option Ending) (res : ℕ) : ℕ → ℕ → Connector → Option Ending
  | 0, _, _ => none
  | rounds + 1, i, c =>
    c.results[res]?.bind (fun obj ↦
      match obj.mRows[i]? with
      | none => skip c
      | some row => andThen (body i row c) (walk body res rounds (i + 1)))

def release (res : ℕ) (c : Connector) : Option Ending := (c.free res).bind skip

section Loops

variable (answer : ℕ → Query → Answer)

def each (q : Query) (body : ℕ → Row → Connector → Option Ending) (after : ℕ → Connector → Option Ending)
    (otherwise : Connector → Option Ending) (c : Connector) : Option Ending :=
  match c.execute answer q with
  | .error fault => emit (.error fault) c
  | .ok (cnt, c') =>
    if 0 < int32 cnt then
      c'.fetchall.bind (fun fetched ↦
        fetched.2.results[fetched.1]?.bind (fun obj ↦
          andThen (walk body fetched.1 (obj.mRows.length + 1) 0 fetched.2) (after fetched.1)))
    else otherwise c'

variable (config : Config)

def payBlock (type rid : ℕ) : Connector → Option Ending :=
  each answer (.pay type rid) (fun _ row ↦ emit (payStep config rid row)) release
    (emit (.ok (.noPolicy rid)))

def audioBlock (rid audioSourceId : ℕ) (c : Connector) : Option Ending :=
  if 0 < audioSourceId then
    each answer (.audio audioSourceId) (fun _ row ↦ emit (audioStep config rid row)) release skip c
  else skip c

def rowBlock (type : ℕ) (visit : Visit) (c : Connector) : Option Ending :=
  match recordOf config type visit with
  | .error fault => emit (.error fault) c
  | .ok record =>
    andThen (emit (.ok (.record record.rid record.fields)) c) (fun c ↦
      andThen ((if type = 0 ∨ type = 1 then payBlock answer config type record.rid else skip) c)
        (if type = 0 then audioBlock answer config record.rid record.audioSourceId else skip))

/-- The body of the loop over the ids. The rows of its own select are not released. -/
def sweep (type : ℕ) (prior : ℕ → Prior) : Connector → Option Ending :=
  each answer .window (fun i row ↦ rowBlock answer config type ⟨row, prior i⟩) (fun _ ↦ skip) skip

end Loops

/-- What a piece of the program is for, by the number of queries made before it: the
steps that it comes to, and the number of queries made after it. There are no
result objects here, a select simply has its rows. -/
abbrev Script := ℕ → List (Except Fault Write) × ℕ

namespace Script

def emits (steps : List (Except Fault Write)) : Script := fun n ↦ (steps, n)

def andThen (s t : Script) : Script := fun n ↦ ((s n).1 ++ (t (s n).2).1, (t (s n).2).2)

def loop (script : ℕ → Row → Script) : ℕ → List Row → Script
  | _, [] => emits []
  | i, row :: rows => (script i row).andThen (loop script (i + 1) rows)

variable (answer : ℕ → Query → Answer)

def each (q : Query) (script : ℕ → Row → Script) (otherwise : Script) : Script := fun n ↦
  match (answer n q).found with
  | .error fault => ([.error fault], n + 1)
  | .ok found => (if found = [] then otherwise else loop script 0 found) (n + 1)

variable (config : Config)

def pay (type rid : ℕ) : Script :=
  each answer (.pay type rid) (fun _ row ↦ emits [payStep config rid row]) (emits [.ok (.noPolicy rid)])

def audio (rid audioSourceId : ℕ) : Script :=
  if 0 < audioSourceId then
    each answer (.audio audioSourceId) (fun _ row ↦ emits [audioStep config rid row]) (emits [])
  else emits []

def row (type : ℕ) (visit : Visit) : Script :=
  match recordOf config type visit with
  | .error fault => emits [.error fault]
  | .ok record =>
    (emits [.ok (.record record.rid record.fields)]).andThen
      ((if type = 0 ∨ type = 1 then pay answer config type record.rid else emits []).andThen
        (if type = 0 then audio answer config record.rid record.audioSourceId else emits []))

def sweep (type : ℕ) (prior : ℕ → Prior) : Script :=
  each answer .window (fun i found ↦ row answer config type ⟨found, prior i⟩) (emits [])

end Script

section Yielding

variable {base base' c : Connector} {n : ℕ} {first : Option Ending} {next : Connector → Option Ending}
  {s t : Script}

/-- The piece comes to an end, writes what the steps of the script come to, and
leaves the result objects of the base as they are. -/
def Yields (base : Connector) (n : ℕ) (x : Option Ending) (s : Script) : Prop :=
  ∃ fault c, x = some ⟨completed (s n).1, fault, c⟩ ∧ (fault = none ↔ finishes (s n).1 = true) ∧
    base.results <+: c.results ∧ (fault = none → c.asked = (s n).2)

theorem andThen_emits_nil (s : Script) : s.andThen (.emits []) = s := by
  funext n
  simp only [Script.andThen, Script.emits, List.append_nil]

theorem Yields.mono (h : Yields base n first s) (hbase : base'.results <+: base.results) :
    Yields base' n first s := by
  obtain ⟨fault, c, hfirst, hfault, hheap, hasked⟩ := h
  exact ⟨fault, c, hfirst, hfault, hbase.trans hheap, hasked⟩

theorem Yields.andThen (h : Yields base n first s) (hbase : base'.results <+: base.results)
    (hnext : ∀ c, base.results <+: c.results → Yields base' c.asked (next c) t) :
    Yields base' n (andThen first next) (s.andThen t) := by
  obtain ⟨fault, c, rfl, hfault, hheap, hasked⟩ := h
  cases fault with
  | some fault =>
    have hnot : finishes (s n).1 ≠ true := fun hsteps ↦ by cases hfault.mpr hsteps
    refine ⟨some fault, c, ?_, ?_, hbase.trans hheap, fun hno ↦ by cases hno⟩
    · rw [Script.andThen, completed_append_of_not hnot]
      rfl
    · rw [Script.andThen, finishes_append]
      exact iff_of_false (by simp) (fun hboth ↦ hnot hboth.1)
  | none =>
    have hsteps := hfault.mp rfl
    obtain ⟨fault, c', hc', hfault', hheap', hasked'⟩ := hnext c hheap
    rw [hasked rfl] at hc' hfault' hasked'
    refine ⟨fault, c', ?_, ?_, hheap', hasked'⟩
    · rw [Script.andThen, completed_append hsteps, Queries.andThen, Option.bind_some]
      change (next c).map _ = _
      rw [hc']
      rfl
    · rw [Script.andThen, finishes_append, hfault']
      exact (and_iff_right hsteps).symm

theorem yields_skip (c : Connector) : Yields c c.asked (skip c) (.emits []) :=
  ⟨none, c, rfl, iff_of_true rfl rfl, List.prefix_rfl, fun _ ↦ rfl⟩

theorem yields_emit (step : Except Fault Write) (c : Connector) :
    Yields c c.asked (emit step c) (.emits [step]) := by
  cases step with
  | ok w => exact ⟨none, c, rfl, iff_of_true rfl rfl, List.prefix_rfl, fun _ ↦ rfl⟩
  | error fault =>
    refine ⟨some fault, c, rfl, iff_of_false (by simp) (fun h ↦ ?_), List.prefix_rfl, fun h ↦ by cases h⟩
    cases h

theorem yields_if {P : Prop} [Decidable P] {x : Connector → Option Ending}
    (h : ∀ c, Yields c c.asked (x c) s) (c : Connector) :
    Yields c c.asked ((if P then x else skip) c) (if P then s else .emits []) := by
  split
  · exact h c
  · exact yields_skip c

end Yielding

section Walking

variable {answer : ℕ → Query → Answer} {body : ℕ → Row → Connector → Option Ending}
  {script : ℕ → Row → Script} {c : Connector} {q : Query}

theorem getElem_of_extends {objs objs' : List MysqlResult} {res : ℕ} {obj : MysqlResult}
    (h : objs <+: objs') (hobj : objs[res]? = some obj) : objs'[res]? = some obj := by
  obtain ⟨more, rfl⟩ := h
  rw [List.getElem?_append_left (List.getElem?_eq_some_iff.mp hobj).1, hobj]

theorem walk_yields (hbody : ∀ i row c, Yields c c.asked (body i row c) (script i row)) {res : ℕ}
    {obj : MysqlResult} {rounds i : ℕ} (hobj : c.results[res]? = some obj) (hi : i ≤ obj.mRows.length)
    (hrounds : obj.mRows.length < i + rounds) :
    Yields c c.asked (walk body res rounds i c) (.loop script i (obj.mRows.drop i)) := by
  induction rounds generalizing i c with
  | zero => omega
  | succ rounds ih =>
    rw [walk, hobj, Option.bind_some]
    cases hrow : obj.mRows[i]? with
    | none =>
      rw [List.drop_eq_nil_of_le (List.getElem?_eq_none_iff.mp hrow)]
      exact yields_skip c
    | some row =>
      obtain ⟨hi, rfl⟩ := List.getElem?_eq_some_iff.mp hrow
      rw [List.drop_eq_getElem_cons hi]
      refine (hbody i _ c).andThen List.prefix_rfl fun c' hc' ↦ ?_
      exact (ih (getElem_of_extends hc' hobj) (by omega) (by omega)).mono hc'

def Follows (after : ℕ → Connector → Option Ending) : Prop :=
  ∀ base c (obj : MysqlResult), base.results ++ [obj] <+: c.results →
    Yields base c.asked (after base.results.length c) (.emits [])

theorem follows_release : Follows release := by
  rintro base c obj ⟨more, hmore⟩
  rw [List.append_assoc] at hmore
  have hobj : c.results[base.results.length]? = some obj := by
    rw [← hmore, List.getElem?_append_right le_rfl, Nat.sub_self]
    rfl
  have hset : base.results <+: c.results.set base.results.length { obj with mRows := [] } := by
    rw [← hmore, List.set_append_right _ _ le_rfl]
    exact List.prefix_append _ _
  refine ⟨none, { c with results := _ }, ?_, iff_of_true rfl rfl, hset, fun _ ↦ rfl⟩
  rw [release, Connector.free, hobj]
  rfl

theorem follows_skip : Follows (fun _ ↦ skip) := by
  intro base c obj hc
  exact (yields_skip c).mono ((List.prefix_append _ _).trans hc)

theorem counted_of_pos {found : List Row} (h : 0 < int32 found.length) : counted found = found :=
  if_pos h

theorem counted_ne_nil_iff {found : List Row} : counted found ≠ [] ↔ 0 < int32 found.length := by
  by_cases h : 0 < int32 found.length
  · rw [counted_of_pos h]
    refine iff_of_true ?_ h
    rintro rfl
    exact absurd h (by decide)
  · rw [counted, if_neg h]
    exact iff_of_false (fun hne ↦ hne rfl) h

def holding (c : Connector) (found : List Row) : Connector :=
  { c with asked := c.asked + 1 }.new ⟨some [], found⟩

theorem holding_at (c : Connector) (found : List Row) :
    (holding c found).results[c.results.length]? = some ⟨some [], found⟩ :=
  List.getElem?_concat_length

theorem fetchall_new (c : Connector) (found : List Row) :
    ({ c with asked := c.asked + 1 }.new ⟨some found, []⟩).fetchall =
      some (c.results.length, holding c found) := by
  simp only [holding, Connector.new, Connector.fetchall, Option.bind_some, List.getElem?_concat_length,
    Option.map_some, List.set_append_right _ _ le_rfl, Nat.sub_self, List.set_cons_zero, List.nil_append]

theorem execute_spec {found : List Row} (h : (answer c.asked q).found = .ok found) :
    ∃ cnt c', c.execute answer q = .ok (cnt, c') ∧ c.results <+: c'.results ∧ c'.asked = c.asked + 1 ∧
      (0 < int32 cnt ↔ found ≠ []) ∧
      (found ≠ [] → c'.fetchall = some (c.results.length, holding c found)) := by
  rw [Connector.execute]
  cases hq : answer c.asked q with
  | unreachable =>
    rw [hq] at h
    cases h
  | failed =>
    rw [hq] at h
    cases h
    exact ⟨_, _, rfl, List.prefix_rfl, rfl, iff_of_false (by decide) (fun hne ↦ hne rfl),
      fun hne ↦ (hne rfl).elim⟩
  | noResult =>
    rw [hq] at h
    cases h
    exact ⟨_, _, rfl, List.prefix_append _ _, rfl, iff_of_false (by decide) (fun hne ↦ hne rfl),
      fun hne ↦ (hne rfl).elim⟩
  | rows rows =>
    rw [hq] at h
    obtain rfl : counted rows = found := Except.ok.inj h
    refine ⟨_, _, rfl, List.prefix_append _ _, rfl, counted_ne_nil_iff.symm, fun hne ↦ ?_⟩
    rw [counted_of_pos (counted_ne_nil_iff.mp hne)]
    exact fetchall_new c rows

theorem execute_raises {fault : Fault} (h : (answer c.asked q).found = .error fault) :
    c.execute answer q = .error fault := by
  rw [Connector.execute]
  cases hq : answer c.asked q with
  | unreachable =>
    rw [hq] at h
    obtain rfl := Except.error.inj h
    rfl
  | _ =>
    rw [hq] at h
    cases h

theorem loop_yields {after : ℕ → Connector → Option Ending}
    (hbody : ∀ i row c, Yields c c.asked (body i row c) (script i row)) (hafter : Follows after)
    (c : Connector) (found : List Row) :
    Yields c (c.asked + 1)
      (andThen (walk body c.results.length (found.length + 1) 0 (holding c found)) (after c.results.length))
      (.loop script 0 found) := by
  have hwalk : Yields (holding c found) (c.asked + 1)
      (walk body c.results.length (found.length + 1) 0 (holding c found)) (.loop script 0 found) :=
    walk_yields hbody (holding_at c found) (Nat.zero_le _)
      (Nat.lt_of_lt_of_eq (Nat.lt_add_one _) (Nat.zero_add _).symm)
  have hall := hwalk.andThen (List.prefix_append c.results [⟨some [], found⟩])
    (fun d hd ↦ hafter c d _ hd)
  rwa [andThen_emits_nil] at hall

/-- A query with its loop comes to what the rows that it finds come to, whatever
other queries are made in the rounds. -/
theorem each_yields {after : ℕ → Connector → Option Ending}
    {otherwise : Connector → Option Ending} {others : Script}
    (hbody : ∀ i row c, Yields c c.asked (body i row c) (script i row)) (hafter : Follows after)
    (hothers : ∀ c, Yields c c.asked (otherwise c) others) (c : Connector) :
    Yields c c.asked (each answer q body after otherwise c) (.each answer q script others) := by
  cases hfound : (answer c.asked q).found with
  | error fault =>
    refine ⟨some fault, c, ?_, ?_, List.prefix_rfl, fun h ↦ by cases h⟩
    · simp only [each, execute_raises hfound, Script.each, hfound]
      rfl
    · simp only [Script.each, hfound]
      exact iff_of_false (by simp) (fun h ↦ by cases h)
  | ok found =>
    obtain ⟨cnt, c', hexecute, hheap, hasked, hcnt, hfetch⟩ := execute_spec hfound
    have hscript : Script.each answer q script others c.asked =
        (if found = [] then others else .loop script 0 found) (c.asked + 1) := by
      simp only [Script.each, hfound]
    rw [Yields, hscript, each, hexecute]
    by_cases hnil : found = []
    · have hneg : ¬ 0 < int32 cnt := fun hpos ↦ hcnt.mp hpos hnil
      simp only [if_pos hnil, if_neg hneg, ← hasked]
      exact (hothers c').mono hheap
    · simp only [if_neg hnil, if_pos (hcnt.mpr hnil), hfetch hnil, Option.bind_some, holding_at]
      exact loop_yields hbody hafter c found

end Walking

section Blocks

variable {answer : ℕ → Query → Answer} {config : Config} {type : ℕ}

theorem yields_payBlock (rid : ℕ) (c : Connector) :
    Yields c c.asked (payBlock answer config type rid c) (.pay answer config type rid) :=
  each_yields (fun _ row ↦ yields_emit (payStep config rid row)) follows_release
    (yields_emit (.ok (.noPolicy rid))) c

theorem yields_audioBlock (rid audioSourceId : ℕ) (c : Connector) :
    Yields c c.asked (audioBlock answer config rid audioSourceId c)
      (.audio answer config rid audioSourceId) := by
  rw [audioBlock, Script.audio]
  split
  · exact each_yields (fun _ row ↦ yields_emit (audioStep config rid row)) follows_release yields_skip c
  · exact yields_skip c

theorem yields_rowBlock (visit : Visit) (c : Connector) :
    Yields c c.asked (rowBlock answer config type visit c) (.row answer config type visit) := by
  rw [rowBlock, Script.row]
  cases recordOf config type visit with
  | error fault => exact yields_emit (.error fault) c
  | ok record =>
    refine (yields_emit _ c).andThen List.prefix_rfl fun c₁ hc₁ ↦ Yields.mono ?_ hc₁
    refine (yields_if (yields_payBlock record.rid) c₁).andThen List.prefix_rfl fun c₂ hc₂ ↦ ?_
    exact (yields_if (yields_audioBlock record.rid record.audioSourceId) c₂).mono hc₂

end Blocks

section Tables

variable {answer : ℕ → Query → Answer} {config : Config} {db : Database} {type : ℕ} {rows : List Row}

/-- Every select gives the rows of the table, each time that it is made. -/
structure Shows (answer : ℕ → Query → Answer) (db : Database) (type : ℕ) (rows : List Row) : Prop where
  window : ∀ n, (answer n .window).found = .ok (counted rows)
  pay : ∀ n rid, (answer n (.pay type rid)).found = .ok (counted (selectPay db type rid))
  audio : ∀ n id, (answer n (.audio id)).found = .ok (counted (selectAudio db id))

theorem loop_steps {script : ℕ → Row → Script} {steps : ℕ → Row → List (Except Fault Write)}
    (h : ∀ i row n, (script i row n).1 = steps i row) (i n : ℕ) (rows : List Row) :
    (Script.loop script i rows n).1 = (rows.zipIdx i).flatMap (fun found ↦ steps found.2 found.1) := by
  induction rows generalizing i n with
  | nil => rfl
  | cons row rows ih =>
    rw [List.zipIdx_cons, List.flatMap_cons, ← ih (i + 1) (script i row n).2, ← h i row n]
    rfl

theorem loop_map {f : Row → Except Fault Write} (i n : ℕ) (rows : List Row) :
    (Script.loop (fun _ row ↦ .emits [f row]) i rows n).1 = rows.map f := by
  induction rows generalizing i n with
  | nil => rfl
  | cons row rows ih =>
    rw [List.map_cons, ← ih (i + 1) n]
    rfl

theorem each_steps {q : Query} {script : ℕ → Row → Script} {others : Script} {found : List Row}
    (h : ∀ n, (answer n q).found = .ok found) (n : ℕ) :
    (Script.each answer q script others n).1 =
      ((if found = [] then others else .loop script 0 found) (n + 1)).1 := by
  simp only [Script.each, h]

theorem pay_steps (h : Shows answer db type rows) (rid n : ℕ) :
    (Script.pay answer config type rid n).1 = paySteps config db type rid := by
  rw [Script.pay, each_steps (fun n ↦ h.pay n rid), paySteps]
  by_cases hcount : 0 < int32 (selectPay db type rid).length
  · rw [if_neg (counted_ne_nil_iff.mpr hcount), counted_of_pos hcount, if_pos hcount, loop_map]
  · rw [if_pos (not_not.mp (mt counted_ne_nil_iff.mp hcount)), if_neg hcount]
    rfl

theorem audio_steps (h : Shows answer db type rows) (rid audioSourceId n : ℕ) :
    (Script.audio answer config rid audioSourceId n).1 = audioSteps config db rid audioSourceId := by
  rw [Script.audio, audioSteps]
  by_cases hid : 0 < audioSourceId
  · rw [if_pos hid, each_steps (fun n ↦ h.audio n audioSourceId)]
    by_cases hcount : 0 < int32 (selectAudio db audioSourceId).length
    · rw [if_neg (counted_ne_nil_iff.mpr hcount), counted_of_pos hcount, if_pos ⟨hid, hcount⟩, loop_map]
    · rw [if_pos (not_not.mp (mt counted_ne_nil_iff.mp hcount)), if_neg (fun h ↦ hcount h.2)]
      rfl
  · simp only [hid, false_and, if_false]
    rfl

theorem row_steps (h : Shows answer db type rows) (visit : Visit) (n : ℕ) :
    (Script.row answer config type visit n).1 = rowSteps config db type visit := by
  rw [Script.row, rowSteps]
  cases recordOf config type visit with
  | error fault => rfl
  | ok record =>
    simp only [Script.andThen, Script.emits, attachedSteps, List.singleton_append]
    refine congrArg _ (congrArg₂ _ ?_ ?_)
    · split
      · exact pay_steps h record.rid n
      · rfl
    · split
      · exact audio_steps h record.rid record.audioSourceId _
      · rfl

theorem sweep_steps (h : Shows answer db type rows) (prior : ℕ → Prior) (n : ℕ) :
    (Script.sweep answer config type prior n).1 =
      (visits prior (counted rows)).flatMap (rowSteps config db type) := by
  rw [Script.sweep, each_steps h.window]
  by_cases hnil : counted rows = []
  · rw [if_pos hnil, hnil]
    rfl
  · rw [if_neg hnil, loop_steps (fun i row n ↦ row_steps h ⟨row, prior i⟩ n), visits, List.flatMap_map]

end Tables

/-- The loop over the ids makes the selects for a row on the connector whose rows it
is going through. Whatever becomes of each query, it follows no null pointer and
reads no row behind the last one, it writes what the rows that the queries find
come to, and the results of all earlier queries stay as they are. If the selects
show the tables, these are the commands for the rows of the window. -/
theorem nested_queries_refine (config : Config) (type : ℕ) (answer : ℕ → Query → Answer)
    (prior : ℕ → Prior) (c : Connector) :
    let steps := (Script.sweep answer config type prior c.asked).1
    ∃ ending, sweep answer config type prior c = some ending ∧ ending.writes = completed steps ∧
      (ending.fault = none ↔ finishes steps = true) ∧ c.results <+: ending.connector.results ∧
      ∀ db rows, Shows answer db type rows →
        ending.writes.flatMap (Write.commands (typeTable type)) =
          processRows config db type prior (counted rows) := by
  intro steps
  obtain ⟨fault, c', hend, hfault, hheap, -⟩ : Yields c c.asked (sweep answer config type prior c)
      (.sweep answer config type prior) :=
    each_yields (fun i row ↦ yields_rowBlock ⟨row, prior i⟩) follows_skip yields_skip c
  refine ⟨_, hend, rfl, hfault, hheap, fun db rows h ↦ ?_⟩
  simp only [sweep_steps h, processRows]

section Sample

def songRow (id : String) : Row :=
  [("id".toList, some id.toList), ("audiosourceid".toList, some "4".toList)]

def songProduct : Row := [("id".toList, some "8".toList), ("audiosourceid".toList, some "4".toList)]

/-- The first select over the audio products fails, the second one, for the same
source, does not. -/
def songAnswer : ℕ → Query → Answer
  | _, .window => .rows [songRow "1", songRow "2"]
  | _, .pay _ _ => .noResult
  | 2, .audio _ => .failed
  | _, .audio _ => .rows [songProduct]

theorem nested_queries_refine_instance :
    ∃ ending, sweep songAnswer (fun _ ↦ []) 0 (fun _ ↦ ⟨0, 0⟩) ⟨[], none, 0⟩ = some ending ∧
      ending.writes = [.record 1 [], .noPolicy 1, .record 2 [], .noPolicy 2, .product 2 ['8'] []] ∧
      ending.fault = none := by
  obtain ⟨ending, hend, hwrites, hfault, -⟩ :=
    nested_queries_refine (fun _ ↦ []) 0 songAnswer (fun _ ↦ ⟨0, 0⟩) ⟨[], none, 0⟩
  exact ⟨ending, hend, hwrites, hfault.mpr rfl⟩

end Sample

end Calcsig.Indexer.Queries
