import Calcsig.Foundation.Text

namespace Calcsig.Foundation.Lines

open Text

variable {c : Char} {s : Str}

def find (c : Char) : Str → Option ℕ
  | [] => none
  | x :: xs => if x = c then some 0 else (find c xs).map (· + 1)

theorem find_eq_none_iff : find c s = none ↔ c ∉ s := by
  induction s with
  | nil => simp [find]
  | cons x xs ih =>
    by_cases hx : x = c
    · simp [find, hx]
    · simp [find, hx, Ne.symm hx, ih]

theorem find_append (h : c ∉ s) (r : Str) : find c (s ++ r) = (find c r).map (· + s.length) := by
  induction s with
  | nil => simp
  | cons x xs ih =>
    simp only [List.mem_cons, not_or] at h
    rw [List.cons_append, find, if_neg (Ne.symm h.1), ih h.2, Option.map_map]
    congr 1

theorem find_append_self (h : c ∉ s) (r : Str) : find c (s ++ c :: r) = some s.length := by
  rw [find_append h, find, if_pos rfl, Option.map_some, Nat.zero_add]

theorem exists_find_of_mem (h : c ∈ s) : ∃ n, find c s = some n := by
  cases hf : find c s with
  | none => exact absurd h (find_eq_none_iff.mp hf)
  | some n => exact ⟨n, rfl⟩

theorem find_lt {n : ℕ} (h : find c s = some n) : n < s.length := by
  induction s generalizing n with
  | nil => simp [find] at h
  | cons x xs ih =>
    by_cases hx : x = c
    · simp only [find, hx, if_true, Option.some.injEq] at h
      simp [← h]
    · simp only [find, hx, if_false, Option.map_eq_some_iff] at h
      obtain ⟨m, hm, rfl⟩ := h
      have hlt := ih hm
      simp only [List.length_cons]
      omega

theorem strstr_singleton (c : Char) (s : Str) : strstr [c] s = find c s := by
  induction s with
  | nil => rfl
  | cons x xs ih =>
    rw [strstr, find, ih]
    by_cases hx : x = c
    · simp [hx]
    · simp [hx, Ne.symm hx]

/-- The lines that successive calls of `getline` deliver: what stands behind the
last newline counts only if there is something. -/
def getlines (content : Str) : List Str :=
  let pieces := content.splitOn '\n'
  if pieces.getLast? = some [] then pieces.dropLast else pieces

theorem splitOn_getlines (content : Str) :
    content.splitOn '\n' = getlines content ∨ content.splitOn '\n' = getlines content ++ [[]] := by
  unfold getlines
  dsimp only
  split
  · rename_i h
    obtain ⟨ls, hls⟩ := List.getLast?_eq_some_iff.mp h
    rw [hls]
    simp
  · exact .inl rfl

theorem mem_intercalate_iff {sep : Char} (hc : c ≠ sep) (parts : List Str) :
    c ∈ [sep].intercalate parts ↔ ∃ part ∈ parts, c ∈ part := by
  induction parts with
  | nil => simp
  | cons p parts ih =>
    cases parts with
    | nil => simp
    | cons p' parts =>
      rw [List.intercalate_cons_cons, List.mem_append, List.mem_append, ih]
      simp [hc]

theorem intercalate_concat {α : Type} (sep : List α) {parts : List (List α)} (h : parts ≠ [])
    (c : List α) : sep.intercalate (parts ++ [c]) = sep.intercalate parts ++ (sep ++ c) := by
  induction parts with
  | nil => exact absurd rfl h
  | cons p parts ih =>
    cases parts with
    | nil => simp
    | cons p' parts =>
      rw [List.cons_append, List.cons_append, List.intercalate_cons_cons,
        List.intercalate_cons_cons, ← List.cons_append, ih (by simp)]
      simp

theorem mem_iff_getlines (hc : c ≠ '\n') (content : Str) :
    c ∈ content ↔ ∃ line ∈ getlines content, c ∈ line := by
  have hpieces : c ∈ content ↔ ∃ line ∈ content.splitOn '\n', c ∈ line := by
    rw [← mem_intercalate_iff hc, List.intercalate_splitOn]
  rw [hpieces]
  rcases splitOn_getlines content with h | h
  · rw [h]
  · rw [h]
    simp

theorem foldl_getlines {σ : Type} {f : σ → Str → σ} (hf : ∀ s, f s [] = s) (s : σ) (content : Str) :
    (getlines content).foldl f s = (content.splitOn '\n').foldl f s := by
  rcases splitOn_getlines content with h | h
  · rw [h]
  · rw [h, List.foldl_append, List.foldl_cons, List.foldl_nil, hf]

end Calcsig.Foundation.Lines
