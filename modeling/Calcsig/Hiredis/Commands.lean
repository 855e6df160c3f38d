import Calcsig.Hiredis.Replies

namespace Calcsig.Hiredis.Commands

open Foundation.Text Foundation.RedisServer Read Chunks Replies

section Numbers

def countDigits (v : ℕ) : ℕ :=
  if v < 10 then 1
  else if v < 100 then 2
  else if v < 1000 then 3
  else if v < 10000 then 4
  else countDigits (v / 10000) + 4

def reversedDigits : ℕ → ℕ → Str
  | 0, _ => []
  | n + 1, v => Nat.digitChar (v % 10) :: (if v / 10 = 0 then [] else reversedDigits n (v / 10))

def sdsull2str (v : ℕ) : Str := (reversedDigits (v + 1) v).reverse

theorem decimal_of_lt {v : ℕ} (h : v < 10) : decimal v = [Nat.digitChar v] := Nat.toDigits_of_lt_base h

theorem decimal_of_le {v : ℕ} (h : 10 ≤ v) : decimal v = decimal (v / 10) ++ [Nat.digitChar (v % 10)] :=
  Nat.toDigits_of_base_le (by decide) h

theorem reverse_reversedDigits {n v : ℕ} (h : v < n) : (reversedDigits n v).reverse = decimal v := by
  induction n generalizing v with
  | zero => omega
  | succ n ih =>
    rw [reversedDigits, List.reverse_cons]
    by_cases hv : v < 10
    · rw [if_pos (by omega), decimal_of_lt hv, Nat.mod_eq_of_lt hv]
      rfl
    · rw [if_neg (by omega), ih (by omega), ← decimal_of_le (by omega)]

theorem sdsull2str_eq (v : ℕ) : sdsull2str v = decimal v := reverse_reversedDigits (Nat.lt_add_one v)

theorem length_decimal_of_le {v : ℕ} (h : 10 ≤ v) : (decimal v).length = (decimal (v / 10)).length + 1 := by
  rw [decimal_of_le h, List.length_append, List.length_singleton]

theorem length_decimal_of_lt {v : ℕ} (h : v < 10) : (decimal v).length = 1 := by
  rw [decimal_of_lt h, List.length_singleton]

theorem countDigits_eq (v : ℕ) : countDigits v = (decimal v).length := by
  induction v using countDigits.induct with
  | case1 v h₁ => rw [countDigits, if_pos h₁, length_decimal_of_lt h₁]
  | case2 v h₁ h₂ =>
    rw [countDigits, if_neg h₁, if_pos h₂, length_decimal_of_le (by omega), length_decimal_of_lt (by omega)]
  | case3 v h₁ h₂ h₃ =>
    rw [countDigits, if_neg h₁, if_neg h₂, if_pos h₃, length_decimal_of_le (by omega),
      length_decimal_of_le (by omega), length_decimal_of_lt (by omega)]
  | case4 v h₁ h₂ h₃ h₄ =>
    rw [countDigits, if_neg h₁, if_neg h₂, if_neg h₃, if_pos h₄, length_decimal_of_le (by omega),
      length_decimal_of_le (by omega), length_decimal_of_le (by omega), length_decimal_of_lt (by omega)]
  | case5 v h₁ h₂ h₃ h₄ ih =>
    have hdiv : v / 10000 = v / 10 / 10 / 10 / 10 := by omega
    have htens : 10 ≤ v := by omega
    have hhundreds : 10 ≤ v / 10 := by omega
    have hthousands : 10 ≤ v / 10 / 10 := by omega
    have hmore : 10 ≤ v / 10 / 10 / 10 := by omega
    rw [countDigits, if_neg h₁, if_neg h₂, if_neg h₃, if_neg h₄, ih, length_decimal_of_le htens,
      length_decimal_of_le hhundreds, length_decimal_of_le hthousands, length_decimal_of_le hmore, hdiv]

end Numbers

section Argv

def bulklen (len : ℕ) : ℕ := 1 + countDigits len + 2 + len + 2

def appendArgument (print : ℕ → Str) (cmd arg : Str) : Str :=
  cmd ++ ('$' :: (print arg.length ++ crlf)) ++ arg ++ crlf

/-- The command as it is sent, with a way to print the numbers in it. There is none
where the assertion on its length fails. -/
def formatArgv (print : ℕ → Str) (argv : List Str) : Option Str :=
  let totlen := argv.foldl (fun n arg ↦ n + bulklen arg.length) (1 + countDigits argv.length + 2)
  let cmd := argv.foldl (appendArgument print) ('*' :: (print argv.length ++ crlf))
  if cmd.length = totlen then some cmd else none

def redisFormatSdsCommandArgv (argv : List Str) : Option Str := formatArgv sdsull2str argv

theorem length_string (arg : Str) : (encode (.string arg)).length = bulklen arg.length := by
  simp only [encode, bulklen, countDigits_eq, List.length_cons, List.length_append, crlf, List.length_nil]
  omega

theorem foldl_appendArgument (cmd : Str) (argv : List Str) :
    argv.foldl (appendArgument decimal) cmd = cmd ++ encodeAll (argv.map .string) := by
  induction argv generalizing cmd with
  | nil => simp [encodeAll]
  | cons arg argv ih =>
    rw [List.foldl_cons, ih, List.map_cons, encodeAll, encode, appendArgument]
    simp only [List.append_assoc, List.cons_append]

theorem foldl_bulklen (n : ℕ) (argv : List Str) :
    argv.foldl (fun n arg ↦ n + bulklen arg.length) n = n + (encodeAll (argv.map .string)).length := by
  induction argv generalizing n with
  | nil => simp [encodeAll]
  | cons arg argv ih =>
    rw [List.foldl_cons, ih, List.map_cons, encodeAll, List.length_append, length_string]
    omega

theorem formatArgv_eq (argv : List Str) :
    formatArgv decimal argv = some (encode (.array (argv.map .string))) := by
  have hcmd : argv.foldl (appendArgument decimal) ('*' :: (decimal argv.length ++ crlf)) =
      encode (.array (argv.map .string)) := by
    rw [foldl_appendArgument, encode, List.length_map, List.cons_append]
  rw [formatArgv, hcmd, foldl_bulklen]
  refine if_pos ?_
  simp only [encode, countDigits_eq, List.length_cons, List.length_append, List.length_map, crlf,
    List.length_nil]
  omega

theorem format_eq (argv : List Str) :
    redisFormatSdsCommandArgv argv = some (encode (.array (argv.map .string))) := by
  rw [redisFormatSdsCommandArgv, funext sdsull2str_eq, formatArgv_eq]

/-- The arguments of a command that its counts have room for. -/
def Sized (argv : List Str) : Prop :=
  argv.length < 2147483648 ∧ ∀ arg ∈ argv, arg.length < 9223372036854775808

instance (argv : List Str) : Decidable (Sized argv) :=
  inferInstanceAs (Decidable (argv.length < 2147483648 ∧ ∀ arg ∈ argv, arg.length < 9223372036854775808))

/-- A command that a server answers: it skips one without arguments. -/
def Fitting (argv : List Str) : Prop := argv ≠ [] ∧ Sized argv

instance (argv : List Str) : Decidable (Fitting argv) :=
  inferInstanceAs (Decidable (argv ≠ [] ∧ Sized argv))

theorem sendableAll_strings {room : ℕ} {argv : List Str} (h : ∀ arg ∈ argv, arg.length < 9223372036854775808) :
    SendableAll room (argv.map .string) := by
  induction argv with
  | nil => trivial
  | cons arg argv ih => exact ⟨h arg (by simp), ih (fun a ha ↦ h a (by simp [ha]))⟩

theorem sendable_command {argv : List Str} (h : Sized argv) :
    Sendable 8 (.array (argv.map .string)) :=
  ⟨by decide, by rw [List.length_map]; exact h.1, sendableAll_strings h.2⟩

def commandObject (argv : List Str) : Object :=
  .array argv.length (argv.map (fun arg ↦ some (.text .string arg)))

theorem object_command (argv : List Str) : object (.array (argv.map .string)) = commandObject argv := by
  have hobjects : objects (argv.map .string) = argv.map (fun arg ↦ some (.text .string arg)) := by
    induction argv with
    | nil => rfl
    | cons arg argv ih => rw [List.map_cons, objects, ih]; rfl
  rw [object, hobjects, List.length_map, commandObject]

end Argv

/-- Every command can be formatted, and whoever reads the commands that were sent
one after the other, in whatever chunks they come in, gets the arguments of each
byte for byte: no argument can pass for a part of the protocol. -/
theorem commands_round_trip (commands : List (List Str)) (h : ∀ argv ∈ commands, Sized argv) :
    ∃ sent : List Str, commands.mapM redisFormatSdsCommandArgv = some sent ∧
      ∀ chunks : List Str, chunks.flatten = sent.flatten →
        (session chunks).1 = commands.map commandObject ∧ (session chunks).2.err = none ∧
          (session chunks).2.unread = [] := by
  let replies : List Reply := commands.map (fun argv ↦ .array (argv.map .string))
  refine ⟨replies.map encode, ?_, fun chunks hchunks ↦ ?_⟩
  · clear h
    induction commands with
    | nil => rfl
    | cons argv commands ih =>
      rw [List.mapM_cons, format_eq, ih]
      rfl
  · have hsendable : ∀ reply ∈ replies, Sendable 8 reply := by
      intro reply hreply
      obtain ⟨argv, hargv, rfl⟩ := List.mem_map.mp hreply
      exact sendable_command (h argv hargv)
    have hflat : chunks.flatten = replies.flatMap encode := by rw [hchunks, List.flatMap_def]
    have hout : replies.map object = commands.map commandObject := by
      rw [List.map_map]
      exact List.map_congr_left (fun argv _ ↦ object_command argv)
    rw [← hout]
    exact session_of_consume (consume_replies hsendable hflat)

/-- An argument that looks like the end of the command and a new one behind it. -/
theorem commands_round_trip_instance :
    ∃ sent : List Str,
      [["SET".toList, "key".toList, "\r\n*1\r\n$4\r\nQUIT\r\n".toList], ["GET".toList, "key".toList]].mapM
          redisFormatSdsCommandArgv = some sent ∧
        ∀ chunks : List Str, chunks.flatten = sent.flatten →
          (session chunks).1 =
            [commandObject ["SET".toList, "key".toList, "\r\n*1\r\n$4\r\nQUIT\r\n".toList],
              commandObject ["GET".toList, "key".toList]] := by
  obtain ⟨sent, hsent, hread⟩ := commands_round_trip
    [["SET".toList, "key".toList, "\r\n*1\r\n$4\r\nQUIT\r\n".toList], ["GET".toList, "key".toList]]
    (by decide +kernel)
  exact ⟨sent, hsent, fun chunks hchunks ↦ (hread chunks hchunks).1⟩

end Calcsig.Hiredis.Commands
