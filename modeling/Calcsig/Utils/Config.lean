import Calcsig.Foundation.Lines

namespace Calcsig.Utils.Config

open Foundation.Text Foundation.Lines

variable {α : Type}

/-- A `std::map`: `insert` keeps what is there already. -/
abbrev Map (α : Type) := Str → Option α

namespace Map

def empty : Map α := fun _ ↦ none

def insert (m : Map α) (key : Str) (value : α) : Map α :=
  fun k ↦ (m k).or (if k = key then some value else none)

end Map

abbrev Sections := Map (Map Str)

inductive Outcome (α : Type)
  | running : Outcome α
  | raised : Outcome α
  | done : α → Outcome α
deriving DecidableEq

/-- Erasing at the end of the text does nothing, behind it is an error. -/
def erase (pos : ℕ) (instr : Str) : Option Str :=
  if pos ≤ instr.length then some (instr.eraseIdx pos) else none

/-- The inner loop. Its index is never computed anew. -/
def eraseLoop : ℕ → Option ℕ → Str → Outcome Str
  | _, none, instr => .done instr
  | 0, some _, _ => .running
  | fuel + 1, some pos, instr =>
    match erase pos instr with
    | none => .raised
    | some instr' => eraseLoop fuel (some pos) instr'

def delSpaces (fuel : ℕ) (instr : Str) : Outcome Str :=
  if instr = [] then .done instr else eraseLoop fuel (find ' ' instr) instr

structure Parser where
  config : Sections
  curKey : Str
  tempMap : Map Str

/-- `substr(left + 1, right - left - 1)`: a negative length, cast to an unsigned
one, takes all that is left. -/
def between (instr : Str) (left : ℕ) (right : Option ℕ) : Str :=
  match right with
  | none => instr.drop (left + 1)
  | some r =>
    if left < r then (instr.drop (left + 1)).take (r - left - 1) else instr.drop (left + 1)

def uncomment (instr : Str) : Str :=
  match find '#' instr with
  | some pos => instr.take pos
  | none => instr

def Parser.store (s : Parser) : Sections := s.config.insert s.curKey s.tempMap

def parseText (s : Parser) (instr : Str) : Parser :=
  if instr = [] ∨ find '#' instr = some 0 then s
  else if find '=' instr = none ∧ (find '[' instr = none ∨ find ']' instr = none) then s
  else
    match find '[' instr with
    | some left =>
      { config := if s.curKey ≠ [] then s.store else s.config
        curKey := between instr left (find ']' instr)
        tempMap := Map.empty }
    | none =>
      match find '=' instr with
      | none => s
      | some pos => { s with tempMap := s.tempMap.insert (instr.take pos) (instr.drop (pos + 1)) }

def parseLine (s : Parser) (instr : Str) : Parser := parseText s (uncomment instr)

def readLines (fuel : ℕ) : List Str → Parser → Outcome Parser
  | [], s => .done s
  | line :: lines, s =>
    match delSpaces fuel line with
    | .running => .running
    | .raised => .raised
    | .done instr => readLines fuel lines (parseLine s instr)

/-- The file is its content, or `none` if it cannot be opened; each inner loop
is given `fuel` iterations. -/
def loadConfig (fuel : ℕ) (file : Option Str) (config : Sections) : Outcome (ℤ × Sections) :=
  match file with
  | none => .done (-1, config)
  | some content =>
    match readLines fuel (getlines content) ⟨config, [], Map.empty⟩ with
    | .running => .running
    | .raised => .raised
    | .done s => .done (0, s.store)

theorem eraseLoop_running {pos : ℕ} {instr : Str} (h : pos ≤ instr.length) (fuel : ℕ) :
    eraseLoop fuel (some pos) instr = .running := by
  induction fuel generalizing instr with
  | zero => rfl
  | succ fuel ih =>
    have hnext : pos ≤ (instr.eraseIdx pos).length := by
      rw [List.length_eraseIdx]
      split
      · omega
      · exact h
    simp only [eraseLoop, erase, h, if_true]
    exact ih hnext

theorem delSpaces_eq (fuel : ℕ) (instr : Str) :
    delSpaces fuel instr = if ' ' ∈ instr then .running else .done instr := by
  unfold delSpaces
  by_cases hempty : instr = []
  · simp [hempty]
  · rw [if_neg hempty]
    cases hf : find ' ' instr with
    | none => rw [if_neg (find_eq_none_iff.mp hf), eraseLoop]
    | some pos =>
      have hmem : ' ' ∈ instr := by
        by_contra hn
        rw [find_eq_none_iff.mpr hn] at hf
        cases hf
      rw [if_pos hmem, eraseLoop_running (find_lt hf).le]

theorem readLines_eq (fuel : ℕ) (lines : List Str) (s : Parser) :
    readLines fuel lines s =
      if ∃ line ∈ lines, ' ' ∈ line then .running else .done (lines.foldl parseLine s) := by
  induction lines generalizing s with
  | nil => simp [readLines]
  | cons line lines ih =>
    rw [readLines, delSpaces_eq]
    by_cases hspace : ' ' ∈ line
    · simp [hspace]
    · simp [hspace, ih]

theorem loadConfig_eq (fuel : ℕ) (content : Str) (config : Sections) :
    loadConfig fuel (some content) config =
      if ' ' ∈ content then .running
      else .done (0, ((getlines content).foldl parseLine ⟨config, [], Map.empty⟩).store) := by
  have hmem := mem_iff_getlines (c := ' ') (by decide) content
  rw [loadConfig, readLines_eq]
  by_cases hspace : ' ' ∈ content
  · rw [if_pos hspace, if_pos (hmem.mp hspace)]
  · rw [if_neg hspace, if_neg (fun h ↦ hspace (hmem.mpr h))]

/-- A single space anywhere in the file keeps `loadConfig` in its inner loop for
ever; without spaces it always returns `0`. -/
theorem loadConfig_returns_iff (content : Str) (config : Sections) :
    (∃ fuel config', loadConfig fuel (some content) config = .done (0, config')) ↔
      ' ' ∉ content := by
  simp only [loadConfig_eq]
  by_cases hspace : ' ' ∈ content
  · simp [hspace]
  · simp [hspace]

theorem loadConfig_spaced_entry :
    ¬ ∃ fuel config', loadConfig fuel (some "[common]\nthreadnum = 10\n".toList) Map.empty =
      .done (0, config') := by
  rintro ⟨fuel, config', h⟩
  rw [loadConfig_eq, if_pos (by decide +kernel)] at h
  cases h

end Calcsig.Utils.Config
