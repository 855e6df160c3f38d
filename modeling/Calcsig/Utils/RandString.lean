import Calcsig.Foundation.FileTree

namespace Calcsig.Utils.RandString

open Foundation.Text Foundation.FileTree

def alphabet : Str := "abcdefghijklmnopqrstuvwxyzABCDEFGHIJKLMNOPQRSTUVWXYZ0123456789".toList

def index (isCapital isNum : Bool) (draw : ℕ) : ℕ :=
  if isCapital && isNum then draw % alphabet.length
  else if isCapital then draw % (alphabet.length - 10)
  else if isNum then
    let i := draw % alphabet.length
    (if 25 < i ∧ i < 51 then i + 26 else i) % alphabet.length
  else draw % (alphabet.length - 36)

theorem alphabet_eq : alphabet = (List.range' 97 26 ++ List.range' 65 26 ++ List.range' 48 10).map
    Char.ofNat := by
  decide +kernel

theorem length_alphabet : alphabet.length = 62 := by
  rw [alphabet_eq]
  rfl

theorem index_lt (isCapital isNum : Bool) (draw : ℕ) :
    index isCapital isNum draw < alphabet.length := by
  simp only [index, length_alphabet]
  split
  · omega
  · split
    · omega
    · split <;> omega

def randChar (isCapital isNum : Bool) (draw : ℕ) : Char :=
  alphabet.get ⟨index isCapital isNum draw, index_lt isCapital isNum draw⟩

/-- `randString`, with the results of `rand` in the order of the calls. -/
def randString (draws : ℕ → ℕ) (len : ℕ) (isCapital isNum : Bool) : Str :=
  (List.range len).map (fun i ↦ randChar isCapital isNum (draws i))

theorem isAlphanum_of_mem {c : Char} (h : c ∈ alphabet) : c.isAlphanum = true := by
  have hall : alphabet.all Char.isAlphanum = true := by
    rw [alphabet_eq]
    decide +kernel
  exact List.all_eq_true.mp hall c h

variable (draws : ℕ → ℕ) (len : ℕ) (isCapital isNum : Bool)

theorem mem_alphabet {c : Char} (h : c ∈ randString draws len isCapital isNum) : c ∈ alphabet := by
  obtain ⟨i, -, rfl⟩ := List.mem_map.mp h
  exact List.get_mem ..

theorem notMem_randString {c : Char} (hc : c.isAlphanum = false) :
    c ∉ randString draws len isCapital isNum := by
  intro h
  rw [isAlphanum_of_mem (mem_alphabet draws len isCapital isNum h)] at hc
  cases hc

theorem properName_randString (hlen : 0 < len) (rest : Str) :
    ProperName (randString draws len isCapital isNum ++ rest) := by
  have hmem : randChar isCapital isNum (draws 0) ∈ randString draws len isCapital isNum :=
    List.mem_map.mpr ⟨0, List.mem_range.mpr hlen, rfl⟩
  refine properName_of_mem (List.mem_append_left rest hmem) ?_
  intro hdot
  rw [hdot] at hmem
  exact notMem_randString draws len isCapital isNum (by decide) hmem

section Kinds

variable {isCapital isNum : Bool} {draw : ℕ}

theorem isUpper_get (i : Fin alphabet.length) :
    (alphabet.get i).isUpper = true ↔ 26 ≤ i.val ∧ i.val < 52 := by
  revert i
  rw [alphabet_eq]
  decide +kernel

theorem isDigit_get (i : Fin alphabet.length) : (alphabet.get i).isDigit = true ↔ 52 ≤ i.val := by
  revert i
  rw [alphabet_eq]
  decide +kernel

theorem capital_iff (isCapital isNum : Bool) (draw : ℕ) :
    ((randChar isCapital isNum draw).isUpper = true → isCapital = true) ↔
      isCapital = true ∨ isNum = false ∨ draw % 62 ≠ 51 := by
  rw [randChar, isUpper_get]
  cases isCapital with
  | true => simp
  | false =>
    cases isNum with
    | true =>
      simp only [index, length_alphabet, Bool.false_and, Bool.false_eq_true, if_false, if_true,
        imp_false, Bool.true_eq_false, false_or]
      split <;> omega
    | false =>
      simp only [index, length_alphabet, Bool.false_and, Bool.false_eq_true, if_false, imp_false,
        true_or, or_true, iff_true]
      omega

theorem isDigit_randChar (draw : ℕ) (h : (randChar isCapital isNum draw).isDigit = true) :
    isNum = true := by
  rw [randChar, isDigit_get] at h
  cases isNum with
  | true => rfl
  | false =>
    simp only [index, length_alphabet, Bool.and_false, Bool.false_eq_true, if_false] at h
    split at h <;> omega

end Kinds

/-- The text has the requested length and kinds of characters. -/
structure Respects (s : Str) : Prop where
  length_eq : s.length = len
  capital : ∀ c ∈ s, c.isUpper = true → isCapital = true
  digit : ∀ c ∈ s, c.isDigit = true → isNum = true
  alphanum : ∀ c ∈ s, c.isAlphanum = true

/-- The alphabet is respected unless digits without capitals are asked for and
some `rand` result falls on the last capital. -/
theorem randString_respects_iff :
    Respects len isCapital isNum (randString draws len isCapital isNum) ↔
      isCapital = true ∨ isNum = false ∨ ∀ i < len, draws i % 62 ≠ 51 := by
  have hcapital : (∀ c ∈ randString draws len isCapital isNum, c.isUpper = true → isCapital = true) ↔
      isCapital = true ∨ isNum = false ∨ ∀ i < len, draws i % 62 ≠ 51 := by
    simp only [randString, List.forall_mem_map, List.mem_range, capital_iff, forall_or_left]
  rw [← hcapital]
  refine ⟨fun h ↦ h.capital, fun h ↦ ⟨by simp [randString], h, fun c hc hdigit ↦ ?_, fun c hc ↦ ?_⟩⟩
  · obtain ⟨i, -, rfl⟩ := List.mem_map.mp hc
    exact isDigit_randChar _ hdigit
  · exact isAlphanum_of_mem (mem_alphabet draws len isCapital isNum hc)

/-- The name `Z` without capitals. -/
theorem randString_capital :
    randString (fun _ ↦ 51) 1 false true = ['Z'] ∧
      ¬ Respects 1 false true (randString (fun _ ↦ 51) 1 false true) := by
  have htext : randString (fun _ ↦ 51) 1 false true = ['Z'] := by decide +kernel
  refine ⟨htext, fun h ↦ ?_⟩
  rw [htext] at h
  exact absurd (h.capital 'Z' (by simp) (by decide)) (by decide)

end Calcsig.Utils.RandString
