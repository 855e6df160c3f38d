import Mathlib.Data.List.TakeWhile
import Mathlib.Order.Basic
import Mathlib.Tactic.Common

namespace Calcsig.Foundation.Text

abbrev Str := List Char

def nul : Char := Char.ofNat 0

/-- What a C function reads of a text handed over as a pointer: it ends at
the first NUL, whatever the C++ string holds behind it. -/
def cString (s : Str) : Str := s.takeWhile (· ≠ nul)

theorem nul_notMem_cString (s : Str) : nul ∉ cString s := by
  intro h
  simpa using List.mem_takeWhile_imp h

theorem cString_append {s : Str} (h : nul ∉ s) (s' : Str) : cString (s ++ s') = s ++ cString s' := by
  apply List.takeWhile_append_of_pos
  intro c hc
  simp only [ne_eq, decide_not, Bool.not_eq_eq_eq_not, Bool.not_true, decide_eq_false_iff_not]
  rintro rfl
  exact h hc

theorem cString_of_nul_free {s : Str} (h : nul ∉ s) : cString s = s := by
  simpa [cString] using cString_append h []

theorem cString_eq_self_iff {s : Str} : cString s = s ↔ nul ∉ s := by
  refine ⟨fun h ↦ ?_, cString_of_nul_free⟩
  rw [← h]
  exact nul_notMem_cString s

theorem cString_append_of_mem {s : Str} (h : nul ∈ s) (s' : Str) : cString (s ++ s') = cString s := by
  induction s with
  | nil => cases h
  | cons c s ih =>
    by_cases hc : c = nul
    · simp [cString, hc]
    · have hs : nul ∈ s := (List.mem_cons.mp h).resolve_left (Ne.symm hc)
      simpa [cString, hc] using ih hs

theorem split_of_mem_cString {c : Char} {s : Str} (h : c ∈ cString s) :
    ∃ s' r, s = s' ++ c :: r ∧ c ∉ s' ∧ nul ∉ s' := by
  induction s with
  | nil => cases h
  | cons d s ih =>
    by_cases hd : d = nul
    · simp [cString, hd] at h
    · by_cases hc : d = c
      · exact ⟨[], s, by rw [hc]; rfl, nofun, nofun⟩
      · have hs : c ∈ cString s := by simpa [cString, hd, Ne.symm hc] using h
        obtain ⟨s', r, rfl, hs', hnul⟩ := ih hs
        exact ⟨d :: s', r, rfl, by simp [Ne.symm hc, hs'], by simp [Ne.symm hd, hnul]⟩

theorem cString_append_cString (s r : Str) : cString (s ++ cString r) = cString (s ++ r) := by
  simp only [cString]
  induction s with
  | nil => exact List.takeWhile_idem
  | cons c s ih => simp only [List.cons_append, List.takeWhile_cons, ih]

theorem append_separator_inj {c : Char} {s s' r r' : Str} (hs : c ∉ s) (hs' : c ∉ s') :
    s ++ c :: r = s' ++ c :: r' ↔ s = s' ∧ r = r' := by
  refine ⟨fun h ↦ ?_, fun h ↦ by rw [h.1, h.2]⟩
  induction s generalizing s' with
  | nil =>
    cases s' with
    | nil => exact ⟨rfl, (List.cons.inj h).2⟩
    | cons x xs => exact absurd (by simp [(List.cons.inj h).1]) hs'
  | cons x xs ih =>
    cases s' with
    | nil => exact absurd (by simp [(List.cons.inj h).1]) hs
    | cons y ys =>
      simp only [List.cons_append, List.cons.injEq] at h
      simp only [List.mem_cons, not_or] at hs hs'
      obtain ⟨hxy, hr⟩ := ih hs.2 hs'.2 h.2
      exact ⟨by rw [h.1, hxy], hr⟩

theorem append_last_separator_inj {c : Char} {s s' r r' : Str} (hr : c ∉ r) (hr' : c ∉ r') :
    s ++ c :: r = s' ++ c :: r' ↔ s = s' ∧ r = r' := by
  rw [← List.reverse_inj]
  simp only [List.reverse_append, List.reverse_cons, List.append_assoc, List.singleton_append]
  rw [append_separator_inj (by simpa using hr) (by simpa using hr')]
  simp only [List.reverse_inj, and_comm]

def rfind (c : Char) : Str → Option ℕ
  | [] => none
  | x :: xs =>
    match rfind c xs with
    | some n => some (n + 1)
    | none => if x = c then some 0 else none

theorem rfind_eq_none {c : Char} {s : Str} (h : c ∉ s) : rfind c s = none := by
  induction s with
  | nil => rfl
  | cons x xs ih =>
    simp only [List.mem_cons, not_or] at h
    simp [rfind, ih h.2, Ne.symm h.1]

theorem rfind_append {c : Char} (s : Str) {s' : Str} (h : c ∉ s') :
    rfind c (s ++ c :: s') = some s.length := by
  induction s with
  | nil => simp [rfind, rfind_eq_none h]
  | cons x xs ih => simp [rfind, ih]

theorem rfind_eq_none_iff {c : Char} {s : Str} : rfind c s = none ↔ c ∉ s := by
  refine ⟨fun h ↦ ?_, rfind_eq_none⟩
  induction s with
  | nil => simp
  | cons x xs ih =>
    cases hr : rfind c xs with
    | some n => simp [rfind, hr] at h
    | none =>
      have hx : x ≠ c := by
        rintro rfl
        simp [rfind, hr] at h
      simp only [List.mem_cons, not_or]
      exact ⟨Ne.symm hx, ih hr⟩

theorem rfind_split {c : Char} {s : Str} {n : ℕ} (h : rfind c s = some n) :
    ∃ s', c ∉ s' ∧ s = s.take n ++ c :: s' := by
  induction s generalizing n with
  | nil => simp [rfind] at h
  | cons x xs ih =>
    cases hr : rfind c xs with
    | some m =>
      obtain ⟨s', hs', he⟩ := ih hr
      simp only [rfind, hr, Option.some.injEq] at h
      subst h
      exact ⟨s', hs', by simpa using he⟩
    | none =>
      by_cases hx : x = c
      · simp only [rfind, hr, hx, if_true, Option.some.injEq] at h
        subst h
        exact ⟨xs, rfind_eq_none_iff.mp hr, by simp [hx]⟩
      · simp [rfind, hr, hx] at h

def strstr (needle : Str) : Str → Option ℕ
  | [] => if needle = [] then some 0 else none
  | c :: cs => if needle.isPrefixOf (c :: cs) then some 0 else (strstr needle cs).map (· + 1)

theorem strstr_eq_zero_iff {needle : Str} (hne : needle ≠ []) {s : Str} :
    strstr needle s = some 0 ↔ needle <+: s := by
  cases s with
  | nil => simp [strstr, hne]
  | cons c s =>
    rw [strstr, ← List.isPrefixOf_iff_prefix]
    split
    · simp_all
    · simp_all

def isSpace (c : Char) : Bool :=
  c = ' ' || c = '\t' || c = '\n' || c = '\r' || c = Char.ofNat 11 || c = Char.ofNat 12

def stripSign : Str → Str
  | '-' :: ds | '+' :: ds => ds
  | ds => ds

/-- The decimal `strtoul`: leading blanks and one sign are skipped, the value
saturates at the largest 64-bit number and a minus sign wraps around. -/
def strtoul (s : Str) : ℕ :=
  let body := (cString s).dropWhile isSpace
  let n := Nat.ofDigitChars 10 ((stripSign body).takeWhile Char.isDigit) 0
  if UInt64.size ≤ n then UInt64.size - 1
  else if body.head? = some '-' then (UInt64.size - n) % UInt64.size else n

/-- Extraction of a `std::string` from a stream: one word, without the blanks
in front of it. -/
def firstWord (s : Str) : Str := (s.dropWhile isSpace).takeWhile (fun c ↦ !isSpace c)

theorem firstWord_eq_self_iff {s : Str} : firstWord s = s ↔ ∀ c ∈ s, isSpace c = false := by
  constructor
  · intro h c hc
    rw [← h, firstWord] at hc
    simpa using List.mem_takeWhile_imp hc
  · intro h
    have hdrop : s.dropWhile isSpace = s := by
      cases s with
      | nil => rfl
      | cons c cs => simp [h c List.mem_cons_self]
    rw [firstWord, hdrop]
    apply List.takeWhile_eq_self_iff.mpr
    intro c hc
    simp [h c hc]

theorem firstWord_cString_iff {s : Str} :
    firstWord (cString s) = s ↔ (∀ c ∈ s, isSpace c = false) ∧ nul ∉ s := by
  constructor
  · intro h
    have hmem {c : Char} (hc : c ∈ s) : isSpace c = false ∧ c ∈ cString s := by
      rw [← h, firstWord] at hc
      refine ⟨by simpa using List.mem_takeWhile_imp hc, ?_⟩
      exact (List.dropWhile_sublist _).subset ((List.takeWhile_sublist _).subset hc)
    refine ⟨fun c hc ↦ (hmem hc).1, fun hc ↦ ?_⟩
    simpa using List.mem_takeWhile_imp (hmem hc).2
  · rintro ⟨hspace, hnul⟩
    rw [cString_of_nul_free hnul, firstWord_eq_self_iff]
    exact hspace

/-- Extraction of an unsigned number from a stream: it saturates, a minus sign
wraps around, and a text without digits gives zero. Where only blanks are
left the variable keeps the value it had, and a fresh one has none. -/
def extractUnsigned (size : ℕ) (s : Str) : Option ℕ :=
  let body := s.dropWhile isSpace
  let n := Nat.ofDigitChars 10 ((stripSign body).takeWhile Char.isDigit) 0
  if body = [] then none
  else if size ≤ n then some (size - 1)
  else if body.head? = some '-' then some ((size - n) % size)
  else some n

/-- Extraction of a signed number from a stream: it saturates at both ends. -/
def extractSigned (size : ℕ) (s : Str) : Option ℤ :=
  let body := s.dropWhile isSpace
  let n := Nat.ofDigitChars 10 ((stripSign body).takeWhile Char.isDigit) 0
  if body = [] then none
  else if body.head? = some '-' then some (-(min n (size / 2) : ℕ))
  else some (min n (size / 2 - 1) : ℕ)

def numeral (s : Str) : Option ℕ :=
  if s ≠ [] ∧ s.all Char.isDigit then some (Nat.ofDigitChars 10 s 0) else none

def decimal (n : ℕ) : Str := Nat.toDigits 10 n

def rendering (n : ℤ) : Str := if n < 0 then '-' :: decimal n.natAbs else decimal n.natAbs

theorem decimal_injective : Function.Injective decimal := by
  intro n m h
  have hd := congrArg (fun ds ↦ Nat.ofDigitChars 10 ds 0) h
  simpa only [decimal, Nat.ofDigitChars_ten_toDigits] using hd

theorem isDigit_of_mem_decimal {c : Char} {n : ℕ} (h : c ∈ decimal n) : c.isDigit :=
  Nat.isDigit_of_mem_toDigits (by decide) (by decide) h

theorem notMem_decimal {c : Char} (hc : c.isDigit = false) (n : ℕ) : c ∉ decimal n := by
  intro h
  rw [isDigit_of_mem_decimal h] at hc
  cases hc

theorem decimal_ne_nil (n : ℕ) : decimal n ≠ [] := Nat.toDigits_ne_nil

theorem isSpace_of_isDigit {c : Char} (h : c.isDigit = true) : isSpace c = false := by
  simp only [isSpace, Bool.or_eq_false_iff, decide_eq_false_iff_not]
  refine ⟨⟨⟨⟨⟨?_, ?_⟩, ?_⟩, ?_⟩, ?_⟩, ?_⟩ <;> rintro rfl <;> revert h <;> decide

theorem dropWhile_isSpace_eq_nil_iff {s : Str} :
    s.dropWhile isSpace = [] ↔ ¬ ∃ c ∈ s, isSpace c = false := by
  rw [List.dropWhile_eq_nil_iff]
  simp

section Digits

variable {ds rest blanks : Str}

/-- A reader of numbers finds these digits at once: no blanks and no sign come
before them. -/
structure ReadsAs (body ds : Str) : Prop where
  ne_nil : body ≠ []
  blanks : body.dropWhile isSpace = body
  sign : stripSign body = body
  digits : body.takeWhile Char.isDigit = ds
  minus : body.head? ≠ some '-'

theorem readsAs_digits (hne : ds ≠ []) (hds : ∀ c ∈ ds, c.isDigit = true)
    (hrest : ∀ c, rest.head? = some c → c.isDigit = false) : ReadsAs (ds ++ rest) ds := by
  have hdigits : (ds ++ rest).takeWhile Char.isDigit = ds := by
    rw [List.takeWhile_append_of_pos hds]
    cases rest with
    | nil => simp
    | cons c rest => simp [hrest c rfl]
  obtain ⟨d, ds, rfl⟩ := List.exists_cons_of_ne_nil hne
  have hfirst := hds d List.mem_cons_self
  have hminus : d ≠ '-' := by
    rintro rfl
    revert hfirst
    decide
  have hplus : d ≠ '+' := by
    rintro rfl
    revert hfirst
    decide
  refine ⟨by simp, by simp [isSpace_of_isDigit hfirst], ?_, hdigits, by simpa using hminus⟩
  rw [List.cons_append]
  unfold stripSign
  split <;> simp_all

theorem nul_notMem_of_isSpace {s : Str} (h : ∀ c ∈ s, isSpace c = true) : nul ∉ s := by
  intro hmem
  have hnul := h nul hmem
  revert hnul
  decide

theorem nul_notMem_of_isDigit {s : Str} (h : ∀ c ∈ s, c.isDigit = true) : nul ∉ s := by
  intro hmem
  have hnul := h nul hmem
  revert hnul
  decide

theorem strtoul_padded (hblanks : ∀ c ∈ blanks, isSpace c = true) (hds : ∀ c ∈ ds, c.isDigit = true)
    (hrest : ∀ c ∈ rest, isSpace c = true) (hlt : Nat.ofDigitChars 10 ds 0 < UInt64.size) :
    strtoul (blanks ++ (ds ++ rest)) = Nat.ofDigitChars 10 ds 0 := by
  have hnul : nul ∉ blanks ++ (ds ++ rest) := by
    simp only [List.mem_append, not_or]
    exact ⟨nul_notMem_of_isSpace hblanks, nul_notMem_of_isDigit hds, nul_notMem_of_isSpace hrest⟩
  have hskip : (blanks ++ (ds ++ rest)).dropWhile isSpace = (ds ++ rest).dropWhile isSpace :=
    List.dropWhile_append_of_pos hblanks
  rcases eq_or_ne ds [] with rfl | hne
  · have hnone : rest.dropWhile isSpace = [] := List.dropWhile_eq_nil_iff.mpr hrest
    rw [List.nil_append] at hnul hskip ⊢
    simp only [strtoul, cString_of_nul_free hnul, hskip, hnone]
    rfl
  · have hread : ReadsAs (ds ++ rest) ds := by
      refine readsAs_digits hne hds fun c hc ↦ ?_
      have hspace := hrest c (List.mem_of_head? hc)
      cases hdigit : c.isDigit with
      | false => rfl
      | true => rw [isSpace_of_isDigit hdigit] at hspace; cases hspace
    simp only [strtoul, cString_of_nul_free hnul, hskip, hread.blanks, hread.sign, hread.digits]
    rw [if_neg (by omega), if_neg hread.minus]

theorem readsAs_decimal (n : ℕ) : ReadsAs (decimal n) (decimal n) := by
  nth_rewrite 1 [← List.append_nil (decimal n)]
  exact readsAs_digits (decimal_ne_nil n) (fun _ ↦ isDigit_of_mem_decimal) (by simp)

theorem ofDigitChars_decimal (n : ℕ) : Nat.ofDigitChars 10 (decimal n) 0 = n :=
  Nat.ofDigitChars_ten_toDigits

theorem ofDigitChars_cons_zero (d : Char) (ds : Str) :
    ∃ weight > 0, Nat.ofDigitChars 10 (d :: ds) 0 =
      weight * (d.toNat - '0'.toNat) + Nat.ofDigitChars 10 ds 0 := by
  refine ⟨10 ^ ds.length, Nat.pow_pos (by decide), ?_⟩
  rw [Nat.ofDigitChars_cons, Nat.ofDigitChars_eq_ofDigitChars_zero]
  simp

theorem ofDigitChars_tail_iff {d : Char} (hd : d.isDigit = true) (ds : Str) :
    Nat.ofDigitChars 10 ds 0 = Nat.ofDigitChars 10 (d :: ds) 0 ↔ d = '0' := by
  have hlow : '0'.toNat ≤ d.toNat := by
    simp only [Char.isDigit, Bool.and_eq_true, decide_eq_true_eq] at hd
    exact hd.1
  obtain ⟨weight, hpos, hvalue⟩ := ofDigitChars_cons_zero d ds
  rw [hvalue]
  constructor
  · intro h
    have hmul : weight * (d.toNat - '0'.toNat) = 0 := by omega
    have hsub := (Nat.mul_eq_zero.mp hmul).resolve_left hpos.ne'
    exact Char.toNat_inj.mp (by omega)
  · rintro rfl
    simp

theorem extractUnsigned_eq_none_iff {size : ℕ} {s : Str} :
    extractUnsigned size s = none ↔ ¬ ∃ c ∈ s, isSpace c = false := by
  rw [← dropWhile_isSpace_eq_nil_iff]
  unfold extractUnsigned
  dsimp only
  split
  · rename_i h
    simp [h]
  · rename_i h
    refine iff_of_false ?_ h
    split
    · simp
    · split <;> simp

theorem extractSigned_eq_none_iff {size : ℕ} {s : Str} :
    extractSigned size s = none ↔ ¬ ∃ c ∈ s, isSpace c = false := by
  rw [← dropWhile_isSpace_eq_nil_iff]
  unfold extractSigned
  dsimp only
  split
  · rename_i h
    simp [h]
  · rename_i h
    refine iff_of_false ?_ h
    split <;> simp

theorem extractUnsigned_decimal {size n : ℕ} (h : n < size) :
    extractUnsigned size (decimal n) = some n := by
  have hread := readsAs_decimal n
  simp only [extractUnsigned, hread.blanks, hread.sign, hread.digits, ofDigitChars_decimal]
  rw [if_neg hread.ne_nil, if_neg (by omega), if_neg hread.minus]

theorem extractSigned_rendering {size : ℕ} {n : ℤ} (hlow : -(size / 2 : ℕ) ≤ n)
    (hhigh : n < (size / 2 : ℕ)) : extractSigned size (rendering n) = some n := by
  have hread := readsAs_decimal n.natAbs
  unfold rendering
  split
  · have hblank : isSpace '-' = false := by decide
    have hsign : stripSign ('-' :: decimal n.natAbs) = decimal n.natAbs := rfl
    simp only [extractSigned, List.dropWhile_cons, hblank, Bool.false_eq_true, if_false, hsign,
      hread.digits, ofDigitChars_decimal, List.head?_cons, if_true, reduceCtorEq]
    congr 1
    omega
  · simp only [extractSigned, hread.blanks, hread.sign, hread.digits, ofDigitChars_decimal]
    rw [if_neg hread.ne_nil, if_neg hread.minus]
    congr 1
    omega

end Digits

end Calcsig.Foundation.Text
