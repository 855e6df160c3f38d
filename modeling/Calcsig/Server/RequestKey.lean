import Calcsig.Server.Authentication

namespace Calcsig.Server.RequestKey

open Foundation.Text Utils.ContentSignature Authentication

variable {Ctx : Type}

def hexDigits : Str := "0123456789abcdef".toList

def Renders (bs : List UInt8) (s : Str) : Prop :=
  s.length = 2 * bs.length ∧ ∀ i b, bs[i]? = some b →
    s[2 * i]? = hexDigits[b.toNat / 16]? ∧ s[2 * i + 1]? = hexDigits[b.toNat % 16]?

def digestOf (md5 : Digest Ctx) (secretKey timestamps : Str) : Vector UInt8 16 :=
  md5.final (md5.update md5.init (bytesOf (secretKey ++ '_' :: timestamps)))

theorem hexDigits_digitChar {n : ℕ} (h : n < 16) : hexDigits[n]? = some (Nat.digitChar n) := by
  revert n
  decide +kernel

theorem halves_lt (b : UInt8) : b.toNat / 16 < 16 ∧ b.toNat % 16 < 16 := by
  have hb := b.toNat_lt
  omega

theorem renders_cons {b : UInt8} {bs : List UInt8} {x y : Char} {s : Str} :
    Renders (b :: bs) (x :: y :: s) ↔ hexByte b = [x, y] ∧ Renders bs s := by
  obtain ⟨hhigh, hlow⟩ := halves_lt b
  simp only [Renders, List.length_cons, hexByte]
  constructor
  · rintro ⟨hlen, h⟩
    have hfirst := h 0 b rfl
    rw [hexDigits_digitChar hhigh, hexDigits_digitChar hlow] at hfirst
    refine ⟨?_, by omega, fun i c hi ↦ h (i + 1) c hi⟩
    simpa [eq_comm] using hfirst
  · rintro ⟨hbyte, hlen, h⟩
    refine ⟨by omega, fun i c hi ↦ ?_⟩
    cases i with
    | zero =>
      obtain rfl : b = c := by simpa using hi
      rw [hexDigits_digitChar hhigh, hexDigits_digitChar hlow]
      simp_all
    | succ i => exact h i c hi

theorem renders_iff (bs : List UInt8) (s : Str) : Renders bs s ↔ s = bs.flatMap hexByte := by
  induction bs generalizing s with
  | nil => simp [Renders]
  | cons b bs ih =>
    rw [List.flatMap_cons]
    match s with
    | [] => simp [Renders, hexByte]
    | [x] =>
      simp [Renders, hexByte]
      omega
    | x :: y :: s =>
      rw [renders_cons, ih]
      simp [hexByte, and_assoc, eq_comm]

theorem hexDigits_inj {m n : ℕ} (hm : m < 16) (h : hexDigits[m]? = hexDigits[n]?) : m = n := by
  have hnodup : hexDigits.Nodup := by decide +kernel
  exact (List.getElem?_inj (show m < hexDigits.length from hm) hnodup).mp h

theorem renders_unique {bs bs' : List UInt8} {s : Str} (h : Renders bs s) (h' : Renders bs' s) :
    bs = bs' := by
  have hlen : bs.length = bs'.length := by
    have hl := h.1
    have hl' := h'.1
    omega
  refine List.ext_getElem hlen fun i hi hi' ↦ ?_
  have hbyte := h.2 i bs[i] (List.getElem?_eq_getElem hi)
  have hbyte' := h'.2 i bs'[i] (List.getElem?_eq_getElem hi')
  have hhigh := hexDigits_inj (halves_lt bs[i]).1 (hbyte.1.symm.trans hbyte'.1)
  have hlow := hexDigits_inj (halves_lt bs[i]).2 (hbyte.2.symm.trans hbyte'.2)
  apply UInt8.toNat_inj.mp
  omega

theorem accepts_iff (md5 : Digest Ctx) (secretKey timestamps md5sum : Str) :
    checkRequestValid md5 secretKey timestamps md5sum = some true ↔
      Renders (digestOf md5 secretKey timestamps).toList md5sum := by
  simp only [checkRequestValid, hexLoop_eq, renders_iff, digestOf, Option.map_some, Option.some.injEq,
    decide_eq_true_eq]

/-- The right key is accepted and nothing else, the buffer is never overrun, and
what is accepted stands for one digest only. -/
theorem checkRequestValid_exact (md5 : Digest Ctx) (secretKey timestamps md5sum : Str) :
    (checkRequestValid md5 secretKey timestamps md5sum = some true ↔
      md5sum.length = 32 ∧ Renders (digestOf md5 secretKey timestamps).toList md5sum) ∧
    (∀ md, hexLoop md ≠ none) ∧
    ∀ (md5' : Digest Ctx) secretKey' timestamps',
      checkRequestValid md5 secretKey timestamps md5sum = some true →
      checkRequestValid md5' secretKey' timestamps' md5sum = some true →
      digestOf md5 secretKey timestamps = digestOf md5' secretKey' timestamps' := by
  refine ⟨?_, fun md ↦ by simp [hexLoop_eq], fun md5' secretKey' timestamps' h h' ↦ ?_⟩
  · rw [accepts_iff, iff_and_self]
    intro h
    simpa using h.1
  · rw [accepts_iff] at h h'
    exact Vector.toList_inj.mp (renders_unique h h')

theorem checkRequestValid_exact_instance :
    checkRequestValid zeroDigest "k".toList "5".toList (List.replicate 32 '0') = some true :=
  (checkRequestValid_exact zeroDigest "k".toList "5".toList (List.replicate 32 '0')).1.mpr
    ⟨by simp, (renders_iff _ _).mpr (by decide +kernel)⟩

end Calcsig.Server.RequestKey
