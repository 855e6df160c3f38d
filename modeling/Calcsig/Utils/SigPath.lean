import Calcsig.Foundation.FileTree

namespace Calcsig.Utils.SigPath

open Foundation.Text Foundation.FileTree

def fmtMap : List (Str × Str) :=
  [("mp3".toList, "n".toList), ("wma".toList, "m".toList), ("mkv".toList, "v".toList),
    ("wmv".toList, "v".toList), ("ape".toList, "s".toList), ("flac".toList, "s".toList),
    ("aac".toList, "a".toList), ("jpg".toList, "p".toList), ("f4v".toList, "v".toList),
    ("mp4".toList, "m".toList), ("default".toList, "d".toList)]

def lower (fmt : Str) : Str := fmt.map Char.toLower

def category (fmt : Str) : Str :=
  match fmtMap.lookup fmt with
  | some letter => letter
  | none => (fmtMap.lookup "default".toList).getD []

def sigPath (sig1 sig2 : UInt32) (fmt : Str) : Str :=
  let fmt := lower fmt
  let d1 := sig2 % 100
  let d2 := sig2 / 100 % 100
  let dv := (sig1 ^^^ sig2) % 3 + 1
  category fmt ++ decimal dv.toNat ++ "/".toList ++ decimal d1.toNat ++ "/".toList ++
    decimal d2.toNat ++ "/".toList ++ decimal sig1.toNat ++ ".".toList ++ fmt

theorem category_letter (fmt : Str) : ∃ c, category fmt = [c] ∧ c.isLower = true := by
  have hall : fmtMap.all (fun e ↦ e.2.length == 1 && e.2.all Char.isLower) = true := by decide
  simp only [List.all_eq_true, Bool.and_eq_true, beq_iff_eq] at hall
  unfold category
  cases h : fmtMap.lookup fmt with
  | none => exact ⟨'d', rfl, rfl⟩
  | some letter =>
    obtain ⟨l₁, l₂, he, -⟩ := List.lookup_eq_some_iff.mp h
    obtain ⟨hlen, hlow⟩ := hall (fmt, letter) (by rw [he]; simp)
    obtain ⟨c, rfl⟩ := List.length_eq_one_iff.mp hlen
    exact ⟨c, rfl, hlow c (by simp)⟩

def partition (sig1 sig2 : UInt32) (fmt : Str) : Str :=
  category fmt ++ decimal ((sig1 ^^^ sig2) % 3 + 1).toNat

def fileName (sig1 : UInt32) (fmt : Str) : Str := decimal sig1.toNat ++ '.' :: fmt

theorem sigPath_eq (sig1 sig2 : UInt32) (fmt : Str) :
    sigPath sig1 sig2 fmt = partition sig1 sig2 (lower fmt) ++ '/' ::
      (decimal (sig2 % 100).toNat ++ '/' :: (decimal (sig2 / 100 % 100).toNat ++ '/' ::
        fileName sig1 (lower fmt))) := by
  simp only [sigPath, partition, fileName, show "/".toList = ['/'] from rfl,
    show ".".toList = ['.'] from rfl, List.append_assoc, List.cons_append, List.nil_append]

def SameResidues (sig1 sig2 sig1' sig2' : UInt32) : Prop :=
  sig1 = sig1' ∧ sig2 % 10000 = sig2' % 10000 ∧ (sig1 ^^^ sig2) % 3 = (sig1' ^^^ sig2') % 3

instance (sig1 sig2 sig1' sig2' : UInt32) : Decidable (SameResidues sig1 sig2 sig1' sig2') :=
  inferInstanceAs (Decidable (_ ∧ _))

theorem notMem_partition {c : Char} (hd : c.isDigit = false) (hl : c.isLower = false)
    (sig1 sig2 : UInt32) (fmt : Str) : c ∉ partition sig1 sig2 fmt := by
  obtain ⟨letter, he, hletter⟩ := category_letter fmt
  simp only [partition, he, List.cons_append, List.nil_append, List.mem_cons, not_or]
  refine ⟨?_, notMem_decimal hd _⟩
  rintro rfl
  rw [hletter] at hl
  cases hl

theorem partition_eq_iff (sig1 sig2 sig1' sig2' : UInt32) (fmt : Str) :
    partition sig1 sig2 fmt = partition sig1' sig2' fmt ↔
      (sig1 ^^^ sig2) % 3 = (sig1' ^^^ sig2') % 3 := by
  simp only [partition, List.append_cancel_left_eq, decimal_injective.eq_iff]
  constructor
  · intro h
    rw [UInt32.toNat_inj] at h
    exact (UInt32.add_left_inj 1).mp h
  · intro h
    rw [h]

theorem fileName_eq_iff (sig1 sig1' : UInt32) (fmt fmt' : Str) :
    fileName sig1 fmt = fileName sig1' fmt' ↔ sig1 = sig1' ∧ fmt = fmt' := by
  have hdot (n : ℕ) : '.' ∉ decimal n := notMem_decimal (by decide) n
  rw [fileName, fileName, append_separator_inj (hdot _) (hdot _), decimal_injective.eq_iff,
    UInt32.toNat_inj]

theorem hundreds_eq_iff (n m : ℕ) :
    n % 100 = m % 100 ∧ n / 100 % 100 = m / 100 % 100 ↔ n % 10000 = m % 10000 := by
  omega

theorem levels_eq_iff (sig2 sig2' : UInt32) :
    decimal (sig2 % 100).toNat = decimal (sig2' % 100).toNat ∧
      decimal (sig2 / 100 % 100).toNat = decimal (sig2' / 100 % 100).toNat ↔
    sig2 % 10000 = sig2' % 10000 := by
  rw [decimal_injective.eq_iff, decimal_injective.eq_iff, ← UInt32.toNat_inj]
  simpa using hundreds_eq_iff sig2.toNat sig2'.toNat

/-- Two publications are filed under one path exactly when they agree in the
residues that the path keeps and in the lower-case format. -/
theorem sigPath_inj_iff (sig1 sig2 sig1' sig2' : UInt32) (fmt fmt' : Str) :
    sigPath sig1 sig2 fmt = sigPath sig1' sig2' fmt' ↔
      SameResidues sig1 sig2 sig1' sig2' ∧ lower fmt = lower fmt' := by
  have hslash (n : ℕ) : '/' ∉ decimal n := notMem_decimal (by decide) n
  have hpart (a b : UInt32) (f : Str) : '/' ∉ partition a b f :=
    notMem_partition (by decide) (by decide) a b f
  rw [sigPath_eq, sigPath_eq, append_separator_inj (hpart _ _ _) (hpart _ _ _),
    append_separator_inj (hslash _) (hslash _), append_separator_inj (hslash _) (hslash _),
    fileName_eq_iff]
  constructor
  · rintro ⟨hp, h1, h2, rfl, hf⟩
    rw [hf, partition_eq_iff] at hp
    exact ⟨⟨rfl, (levels_eq_iff _ _).mp ⟨h1, h2⟩, hp⟩, hf⟩
  · rintro ⟨⟨rfl, h2, hp⟩, hf⟩
    obtain ⟨hd1, hd2⟩ := (levels_eq_iff _ _).mpr h2
    exact ⟨by rw [hf, partition_eq_iff]; exact hp, hd1, hd2, rfl, hf⟩

theorem sigPath_residues (sig1 sig2 sig1' sig2' : UInt32) (fmt fmt' : Str) :
    sigPath sig1 sig2 fmt = sigPath sig1' sig2' fmt' ↔
      sig1 = sig1' ∧ sig2.toNat % 10000 = sig2'.toNat % 10000 ∧
        (sig1 ^^^ sig2).toNat % 3 = (sig1' ^^^ sig2').toNat % 3 ∧ lower fmt = lower fmt' := by
  rw [sigPath_inj_iff, SameResidues, and_assoc, and_assoc, ← UInt32.toNat_inj (a := sig2 % 10000),
    ← UInt32.toNat_inj (a := (sig1 ^^^ sig2) % 3)]
  simp only [UInt32.toNat_mod, UInt32.reduceToNat]

end Calcsig.Utils.SigPath
