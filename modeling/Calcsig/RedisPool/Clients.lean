import Calcsig.Hiredis.Conversation
import Calcsig.RedisPool.Connection

namespace Calcsig.RedisPool.Clients

open Function Foundation.Text Foundation.TypedStore Foundation.RedisServer
open Hiredis.Read Hiredis.Replies Hiredis.Commands Hiredis.Exchange Hiredis.Conversation Connection

mutual

/-- The reply that an object stands for. There is none if an element is missing. -/
def replyOf : Object → Option Reply
  | .text .string str => some (.string str)
  | .text .status str => some (.status str)
  | .text .error str => some (.error str)
  | .text _ _ => none
  | .integer n => some (.integer n)
  | .nil => some .nil
  | .array (.ofNat _) element => (repliesOf element).map .array
  | .array (.negSucc missing) _ => some (.hollow missing)

def elementOf : Option Object → Option Reply
  | some obj => replyOf obj
  | none => none

def repliesOf : List (Option Object) → Option (List Reply)
  | [] => some []
  | obj :: element => (elementOf obj).bind (fun reply ↦ (repliesOf element).map (reply :: ·))

end

mutual

theorem replyOf_object : (reply : Reply) → replyOf (object reply) = some reply
  | .string str => by simp only [object, replyOf]
  | .integer n => by simp only [object, replyOf]
  | .nil => by simp only [object, replyOf]
  | .status str => by simp only [object, replyOf]
  | .error str => by simp only [object, replyOf]
  | .array elements => by
    change (repliesOf (objects elements)).map Reply.array = _
    rw [repliesOf_objects elements, Option.map_some]
  | .hollow missing => by simp only [object, replyOf]

theorem repliesOf_objects : (replies : List Reply) → repliesOf (objects replies) = some replies
  | [] => by simp only [objects, repliesOf]
  | reply :: replies => by
    rw [objects, repliesOf, elementOf, replyOf_object reply, Option.bind_some,
      repliesOf_objects replies, Option.map_some]

end

/-- A program over a connection: each call is made with what the calls before it
have returned. -/
inductive Client (α : Type) : Type 1
  | done (a : α)
  | call {β : Type} (c : Call β) (next : β → Client α)

/-- How a program ends over a connection. -/
inductive End (α : Type)
  | value (a : α)
  | crash
  | blocked

namespace Client

variable {α σ : Type} (answer : σ → List Str → Reply × σ)

def received : Result → Option Reply
  | .reply obj => replyOf obj
  | _ => none

def overWire : Client α → List Sys → World σ → End α × World σ
  | .done a, _, w => (.value a, w)
  | .call c next, script, w =>
    match redisCommandArgv answer c.argv script w with
    | (.blocked, w', _) => (.blocked, w')
    | (result, w', script') =>
      match (c.interpret (received result)).value with
      | some b => (next b).overWire script' w'
      | none => (.crash, w')

def against : Client α → σ → Option α × σ
  | .done a, s => (some a, s)
  | .call c next, s =>
    match (c.interpret (some (answer s c.argv).1)).value with
    | some b => (next b).against (answer s c.argv).2
    | none => (none, (answer s c.argv).2)

/-- The states of the server between the calls of the program. -/
inductive Passes : Client α → σ → σ → Prop
  | here (p : Client α) (s : σ) : Passes p s s
  | called {β : Type} (c : Call β) (next : β → Client α) (s : σ) :
      Passes (.call c next) s (answer s c.argv).2
  | later {β : Type} {c : Call β} {next : β → Client α} {s s' : σ} {b : β} :
      (c.interpret (some (answer s c.argv).1)).value = some b → Passes (next b) (answer s c.argv).2 s' →
      Passes (.call c next) s s'

def bytes : Client α → σ → ℕ
  | .done _, _ => 0
  | .call c next, s =>
    (encode (.array (c.argv.map .string))).length + (encode (answer s c.argv).1).length +
      match (c.interpret (some (answer s c.argv).1)).value with
      | some b => (next b).bytes (answer s c.argv).2
      | none => 0

/-- Every command and every reply can be sent, and no call gets on without a reply. -/
def Proper : Client α → σ → Prop
  | .done _, _ => True
  | .call c next, s =>
    Fitting c.argv ∧ Sendable 8 (answer s c.argv).1 ∧ (c.interpret none).value = none ∧
      ∀ b, (c.interpret (some (answer s c.argv).1)).value = some b → (next b).Proper (answer s c.argv).2

end Client

section Refinement

variable {α σ : Type} {answer : σ → List Str → Reply × σ} {w : World σ} {s : σ} {p : Client α}

open Client

/-- A program over the wire does nothing that it would not do against the server
itself. -/
theorem over_spec (hp : p.Proper answer s) (h : Clean w s) (script : List Sys) :
    Passes answer p s (p.overWire answer script w).2.peer.state ∧
      ∀ a, (p.overWire answer script w).1 = .value a →
        p.against answer s = (some a, (p.overWire answer script w).2.peer.state) := by
  induction p generalizing w s script with
  | done a =>
    refine ⟨?_, fun b hb ↦ ?_⟩
    · rw [overWire, h.peer]
      exact .here _ _
    · obtain rfl := End.value.inj hb
      rw [overWire, against, h.peer]
  | call c next ih =>
    obtain ⟨hfits, hreply, hnull, hnext⟩ := hp
    have hended := h.ended hfits hreply script
    have hdoubt {w' : World σ} (hw' : InDoubt answer s c.argv w') :
        Passes answer (.call c next) s w'.peer.state := by
      rcases hw' with hstate | hstate
      · rw [hstate]
        exact .here _ _
      · rw [hstate]
        exact .called _ _ _
    rw [overWire]
    generalize redisCommandArgv answer c.argv script w = ending at hended ⊢
    match ending, hended with
    | (.blocked, w', script'), hw' => exact ⟨hdoubt hw', fun a ha ↦ by cases ha⟩
    | (.null, w', script'), ⟨_, hw'⟩ =>
      simp only [received, hnull]
      exact ⟨hdoubt hw', fun a ha ↦ by cases ha⟩
    | (.reply obj, w', script'), ⟨hobj, hclean⟩ =>
      simp only [received, hobj, replyOf_object]
      cases hvalue : (c.interpret (some (answer s c.argv).1)).value with
      | none =>
        refine ⟨?_, fun a ha ↦ by cases ha⟩
        rw [hclean.peer]
        exact .called _ _ _
      | some b =>
        obtain ⟨hpasses, hagainst⟩ := ih b (hnext b hvalue) hclean script'
        refine ⟨.later hvalue hpasses, fun a ha ↦ ?_⟩
        rw [against, hvalue]
        exact hagainst a ha

theorem over_completes (hp : p.Proper answer s) (h : Clean w s) {script : List Sys}
    (hscript : Productive script) (henough : p.bytes answer s ≤ script.length) {a : α} {s' : σ}
    (hagainst : p.against answer s = (some a, s')) :
    (p.overWire answer script w).1 = .value a := by
  induction p generalizing w s script with
  | done b =>
    obtain ⟨hb, -⟩ := Prod.mk.inj hagainst
    rw [overWire, Option.some.inj hb]
  | call c next ih =>
    obtain ⟨hfits, hreply, -, hnext⟩ := hp
    rw [bytes] at henough
    obtain ⟨w', script', hcommand, hclean, hscript', hlen⟩ :=
      h.completes hfits hreply hscript (by omega)
    rw [overWire, hcommand]
    simp only [received, replyOf_object]
    rw [against] at hagainst
    cases hvalue : (c.interpret (some (answer s c.argv).1)).value with
    | none => simp [hvalue] at hagainst
    | some b =>
      simp only [hvalue] at hagainst henough
      exact ih b (hnext b hvalue) hclean hscript' (by omega) hagainst

end Refinement

/-- A program over the wire refines the program against the server itself. However
the connection fails, the server is left in a state between two of the program's
calls. A program that comes to its end has got the results that the server gives,
and it does come to its end as long as bytes are moved. -/
theorem clients_refine {α σ : Type} (answer : σ → List Str → Reply × σ) (p : Client α) (s : σ)
    (hp : p.Proper answer s) (script : List Sys) :
    let ending := p.overWire answer script (World.fresh s)
    Client.Passes answer p s ending.2.peer.state ∧
      (∀ a, ending.1 = .value a → p.against answer s = (some a, ending.2.peer.state)) ∧
      (Productive script → p.bytes answer s ≤ script.length →
        ∀ a s', p.against answer s = (some a, s') → ending.1 = .value a) := by
  intro ending
  obtain ⟨hpasses, hagainst⟩ := over_spec hp (clean_fresh s) script
  refine ⟨hpasses, hagainst, fun hscript henough a s' ha ↦ ?_⟩
  exact over_completes hp (clean_fresh s) hscript henough ha

def answerAll (n : ℕ) : List Str → Reply × ℕ
  | [_, _] => (.array [.string "x".toList], n + 1)
  | _ => (.integer 1, n + 1)

def addAndList : Client (List Str) :=
  .call (setAdd "s".toList "x".toList) (fun _ ↦ .call (getSet "s".toList) .done)

theorem clients_refine_instance :
    let ending := addAndList.overWire answerAll (List.replicate 80 (.done 1)) (World.fresh 0)
    ending.1 = .value ["x".toList] ∧ ending.2.peer.state = 2 := by
  have hlist : Sendable 8 (.array [.string "x".toList]) :=
    ⟨by decide, by decide, by change _ < 9223372036854775808; decide, trivial⟩
  have hproper : addAndList.Proper answerAll 0 := by
    refine ⟨by decide, ?_, rfl, fun _ _ ↦ ⟨by decide, hlist, rfl, fun _ _ ↦ trivial⟩⟩
    constructor <;> decide
  obtain ⟨-, hagainst, hcompletes⟩ :=
    clients_refine answerAll addAndList 0 hproper (List.replicate 80 (.done 1))
  have hend := hcompletes (fun e he ↦ ⟨0, (List.mem_replicate.mp he).2⟩) (by decide +kernel)
    ["x".toList] 2 rfl
  exact ⟨hend, (Prod.mk.inj (hagainst _ hend)).2.symm⟩

section Writing

variable {store store' : Store Str Str} {reply : Reply}

def callOf : Command Str Str → Call Bool
  | ⟨key, .hmset fields⟩ => setHash key fields
  | ⟨key, .sadd member⟩ => setAdd key member
  | ⟨key, .srem member⟩ => setDel key member

theorem callOf_null (c : Command Str Str) : ((callOf c).interpret none).value = none := by
  obtain ⟨key, op⟩ := c
  cases op <;> rfl

theorem callOf_value (c : Command Str Str) (reply : Reply) :
    ((callOf c).interpret (some reply)).value = some (isOK reply) := by
  obtain ⟨key, op⟩ := c
  cases op with
  | hmset fields => exact checkStatus_value reply
  | sadd member => exact checkMember_value reply
  | srem member => exact checkMember_value reply

theorem perform_of_apply {c : Command Str Str} {r : Request} {argv : List Str}
    (hparse : parse argv = some r) (hkey : r.key = c.key)
    (happly : ∀ v, r.apply v = c.op.apply v) (h : Serves store argv reply store') :
    store' = perform store c := by
  rcases h.cases hparse with ⟨v, hv, -, rfl⟩ | ⟨hnone, rfl, -⟩
  · rw [happly, hkey] at hv
    rw [perform, Op.after, hv, hkey]
    rfl
  · rw [happly, hkey] at hnone
    rw [perform, Op.after, hnone]
    exact (update_eq_self _ _).symm

theorem perform_of_serves (c : Command Str Str) (h : Serves store (callOf c).argv reply store') :
    store' = perform store c := by
  obtain ⟨key, op⟩ := c
  cases op with
  | hmset fields =>
    by_cases hfields : fields = []
    · subst hfields
      rw [(h.error_of_unreadable (parse_hmset_nil key)).1]
      exact (update_eq_self _ _).symm
    · exact perform_of_apply (parse_hmset hfields) rfl (fun _ ↦ rfl) h
  | sadd member => exact perform_of_apply (parse_sadd key member) rfl (fun _ ↦ rfl) h
  | srem member => exact perform_of_apply (parse_srem key member) rfl (fun _ ↦ rfl) h

end Writing

end Calcsig.RedisPool.Clients
