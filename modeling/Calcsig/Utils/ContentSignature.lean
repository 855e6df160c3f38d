import Calcsig.Foundation.FileCalls

namespace Calcsig.Utils.ContentSignature

open Foundation.Text Foundation.FileTree Foundation.FileCalls

abbrev Bytes := List UInt8

/-- The incremental digest of the cryptographic library: feeding pieces one
after the other is feeding their concatenation. -/
structure Digest (Ctx : Type) where
  init : Ctx
  update : Ctx → Bytes → Ctx
  final : Ctx → Vector UInt8 16
  update_nil : ∀ ctx, update ctx [] = ctx
  update_append : ∀ ctx b b', update ctx (b ++ b') = update (update ctx b) b'

def zeroDigest : Digest Unit where
  init := ()
  update _ _ := ()
  final _ := Vector.replicate 16 0
  update_nil _ := rfl
  update_append _ _ _ := rfl

variable {Ctx : Type}

def reverseByteOrder (buf : Vector UInt8 16) (i : Fin 4) : Vector UInt8 16 :=
  (buf.swap (4 * i) (4 * i + 3)).swap (4 * i + 1) (4 * i + 2)

def md5uint (md5val : Vector UInt8 16) (i : Fin 4) : UInt32 :=
  (md5val[4 * i.val]).toUInt32 + (md5val[4 * i.val + 1]).toUInt32 * 0x100 +
    (md5val[4 * i.val + 2]).toUInt32 * 0x10000 + (md5val[4 * i.val + 3]).toUInt32 * 0x1000000

def signatureOf (md5val : Vector UInt8 16) : UInt32 × UInt32 :=
  let words := reverseByteOrder (reverseByteOrder (reverseByteOrder (reverseByteOrder md5val 0) 1) 2) 3
  (md5uint words 0 ^^^ md5uint words 1, md5uint words 2 ^^^ md5uint words 3)

def bufSize : ℕ := 8192

/-- How many bytes the next `read` takes when that many are left: POSIX allows
any positive number up to the size of the buffer. -/
def nextCount : List (Option ℕ) → ℕ
  | some n :: _ => min bufSize (n + 1)
  | _ => bufSize

/-- The read loop, with a bound on its rounds; `none` at the head of the
reads is a read that fails. -/
def readLoop (md5 : Digest Ctx) : ℕ → List (Option ℕ) → Bytes → Ctx → Option Ctx
  | 0, reads, _, ctx => if reads.head? = some none then none else some ctx
  | n + 1, reads, data, ctx =>
    if reads.head? = some none then none
    else if data = [] then some ctx
    else readLoop md5 n reads.tail (data.drop (nextCount reads))
      (md5.update ctx (data.take (nextCount reads)))

inductive FdEvent
  | opened
  | closed
deriving DecidableEq

structure SigReads where
  openRefused : Bool
  reads : List (Option ℕ)

def calcSig (md5 : Digest Ctx) (cwd : Loc) (path : Str) (out : SigReads) (t : Volume Bytes) :
    Option (UInt32 × UInt32) × List FdEvent :=
  if out.openRefused then (none, [])
  else
    match openRead cwd path t with
    | none => (none, [])
    | some data =>
      match readLoop md5 data.length out.reads data md5.init with
      | none => (none, [.opened])
      | some ctx => (some (signatureOf (md5.final ctx)), [.opened, .closed])

def signature (md5 : Digest Ctx) (b : Bytes) : UInt32 × UInt32 :=
  signatureOf (md5.final (md5.update md5.init b))

theorem nextCount_pos (reads : List (Option ℕ)) : 0 < nextCount reads := by
  unfold nextCount
  split <;> simp only [bufSize] <;> omega

theorem readLoop_spec (md5 : Digest Ctx) (n : ℕ) (reads : List (Option ℕ)) (data : Bytes) (ctx : Ctx)
    (hn : data.length ≤ n) :
    readLoop md5 n reads data ctx = none ∨
      readLoop md5 n reads data ctx = some (md5.update ctx data) := by
  induction n generalizing reads data ctx with
  | zero =>
    obtain rfl : data = [] := List.length_eq_zero_iff.mp (by omega)
    simp only [readLoop, md5.update_nil]
    split <;> simp
  | succ n ih =>
    by_cases hfail : reads.head? = some none
    · exact .inl (by simp only [readLoop, hfail, if_true])
    · by_cases hdata : data = []
      · exact .inr (by simp only [readLoop, hfail, hdata, md5.update_nil, if_true, if_false])
      · have hpos := nextCount_pos reads
        have hlen : 0 < data.length := List.length_pos_iff.mpr hdata
        have hrec := ih reads.tail (data.drop (nextCount reads))
          (md5.update ctx (data.take (nextCount reads))) (by rw [List.length_drop]; omega)
        rw [← md5.update_append, List.take_append_drop] at hrec
        simpa only [readLoop, hfail, hdata, if_false] using hrec

theorem calcSig_spec {md5 : Digest Ctx} {cwd : Loc} {path : Str} {out : SigReads} {t : Volume Bytes}
    {sig : UInt32 × UInt32} (h : (calcSig md5 cwd path out t).1 = some sig) :
    ∃ b, openRead cwd path t = some b ∧ sig = signature md5 b := by
  unfold calcSig at h
  split at h
  · cases h
  · split at h
    · cases h
    · rename_i data hdata
      refine ⟨data, hdata, ?_⟩
      rcases readLoop_spec md5 data.length out.reads data md5.init le_rfl with hr | hr
      · simp [hr] at h
      · simp only [hr, Option.some.injEq] at h
        exact h.symm

end Calcsig.Utils.ContentSignature
