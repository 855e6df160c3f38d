import Calcsig.Utils.ContentSignature
import Mathlib.Data.Finset.Basic

namespace Calcsig.Utils.ReadSequence

open Foundation.FileTree Foundation.FileCalls Foundation.Text ContentSignature

variable {Ctx : Type}

/-- The bytes of a successful `read`: at least one and no more than the buffer
takes. -/
structure Piece where
  bytes : Bytes
  ne_nil : bytes ≠ []
  fits : bytes.length ≤ bufSize

/-- What `read` returns: a positive count, zero, or a negative value. -/
inductive Read
  | piece (p : Piece)
  | zero
  | failed

/-- What `calcSig` can change for its caller. -/
structure Caller where
  nsig1 : UInt32
  nsig2 : UInt32
  descriptors : Finset ℕ

/-- The loop of `calcSig`, which has not ended when the reads run out. -/
def hashLoop (md5 : Digest Ctx) : Ctx → List Read → Option (Option Ctx)
  | _, [] => none
  | ctx, .zero :: _ => some (some ctx)
  | _, .failed :: _ => some none
  | ctx, .piece p :: reads => hashLoop md5 (md5.update ctx p.bytes) reads

/-- `calcSig` on the results of its system calls. A file that is opened gets a
descriptor that is not in use. -/
def calcSig (md5 : Digest Ctx) (s : Caller) (fd : Option {fd // fd ∉ s.descriptors})
    (reads : List Read) : Option (Bool × Caller) :=
  match fd with
  | none => some (false, s)
  | some fd =>
    let opened := insert fd.val s.descriptors
    (hashLoop md5 md5.init reads).map (fun
      | none => (false, { s with descriptors := opened })
      | some ctx =>
        let sig := signatureOf (md5.final ctx)
        (true, ⟨sig.1, sig.2, opened.erase fd.val⟩))

def byteOf (d : Vector UInt8 16) (i : Fin 4) (k : ℕ) : UInt32 := (d[4 * i.val + k]?.getD 0).toUInt32

def bigEndian (d : Vector UInt8 16) (i : Fin 4) : UInt32 :=
  byteOf d i 0 * 0x1000000 + byteOf d i 1 * 0x10000 + byteOf d i 2 * 0x100 + byteOf d i 3

theorem byteOf_eq (d : Vector UInt8 16) (i : Fin 4) {k : ℕ} (hk : k < 4) :
    byteOf d i k = (d[4 * i.val + k]).toUInt32 := by
  rw [byteOf, Vector.getElem?_eq_getElem (by omega), Option.getD_some]

theorem getElem_reverse_of_ne (d : Vector UInt8 16) {i j : Fin 4} (h : i ≠ j) (k : ℕ)
    (hk : k < 4) : (reverseByteOrder d i)[4 * j.val + k] = d[4 * j.val + k] := by
  have hij : i.val ≠ j.val := fun he ↦ h (Fin.ext he)
  simp only [reverseByteOrder, Vector.getElem_swap]
  repeat rw [if_neg (by omega)]

theorem words_reverse_of_ne (d : Vector UInt8 16) {i j : Fin 4} (h : i ≠ j) :
    md5uint (reverseByteOrder d i) j = md5uint d j ∧
      bigEndian (reverseByteOrder d i) j = bigEndian d j := by
  have hget := getElem_reverse_of_ne d h
  have hfirst : (reverseByteOrder d i)[4 * j.val] = d[4 * j.val] := hget 0 (by decide)
  have hbyte (k : ℕ) (hk : k < 4) : byteOf (reverseByteOrder d i) j k = byteOf d j k := by
    rw [byteOf_eq _ _ hk, byteOf_eq _ _ hk, hget k hk]
  refine ⟨?_, ?_⟩
  · simp only [md5uint, hfirst, hget 1 (by decide), hget 2 (by decide), hget 3 (by decide)]
  · simp only [bigEndian, hbyte 0 (by decide), hbyte 1 (by decide), hbyte 2 (by decide),
      hbyte 3 (by decide)]

theorem md5uint_reverse (d : Vector UInt8 16) (i : Fin 4) :
    md5uint (reverseByteOrder d i) i = bigEndian d i := by
  have hswap : (reverseByteOrder d i)[4 * i.val] = d[4 * i.val + 3] ∧
      (reverseByteOrder d i)[4 * i.val + 1] = d[4 * i.val + 2] ∧
      (reverseByteOrder d i)[4 * i.val + 2] = d[4 * i.val + 1] ∧
      (reverseByteOrder d i)[4 * i.val + 3] = d[4 * i.val] := by
    simp [reverseByteOrder]
  have hsum (b₀ b₁ b₂ b₃ : UInt32) : b₃ + b₂ * 0x100 + b₁ * 0x10000 + b₀ * 0x1000000 =
      b₀ * 0x1000000 + b₁ * 0x10000 + b₂ * 0x100 + b₃ := by ac_rfl
  rw [md5uint, hswap.1, hswap.2.1, hswap.2.2.1, hswap.2.2.2, hsum, bigEndian,
    byteOf_eq d i (by decide), byteOf_eq d i (by decide), byteOf_eq d i (by decide),
    byteOf_eq d i (by decide)]
  rfl

theorem signatureOf_eq (d : Vector UInt8 16) :
    signatureOf d = (bigEndian d 0 ^^^ bigEndian d 1, bigEndian d 2 ^^^ bigEndian d 3) := by
  have hframe {d : Vector UInt8 16} {i j : Fin 4} (h : i ≠ j) := words_reverse_of_ne d h
  simp only [signatureOf]
  rw [(hframe (i := 3) (j := 0) (by decide)).1, (hframe (i := 2) (j := 0) (by decide)).1,
    (hframe (i := 1) (j := 0) (by decide)).1, (hframe (i := 3) (j := 1) (by decide)).1,
    (hframe (i := 2) (j := 1) (by decide)).1, (hframe (i := 3) (j := 2) (by decide)).1]
  simp only [md5uint_reverse]
  rw [(hframe (i := 0) (j := 1) (by decide)).2, (hframe (i := 1) (j := 2) (by decide)).2,
    (hframe (i := 0) (j := 2) (by decide)).2, (hframe (i := 2) (j := 3) (by decide)).2,
    (hframe (i := 1) (j := 3) (by decide)).2, (hframe (i := 0) (j := 3) (by decide)).2]

/-- A way to read the whole content. -/
structure Reading (content : Bytes) where
  pieces : List Piece
  whole : pieces.flatMap Piece.bytes = content

section Outcomes

variable (md5 : Digest Ctx) (s : Caller)

theorem hashLoop_pieces (ctx : Ctx) (pieces : List Piece) (reads : List Read) :
    hashLoop md5 ctx (pieces.map .piece ++ reads) =
      hashLoop md5 (md5.update ctx (pieces.flatMap Piece.bytes)) reads := by
  induction pieces generalizing ctx with
  | nil => rw [List.flatMap_nil, md5.update_nil, List.map_nil, List.nil_append]
  | cons p pieces ih =>
    rw [List.flatMap_cons, md5.update_append, ← ih]
    rfl

theorem calcSig_zero (fd : {fd // fd ∉ s.descriptors}) (pieces : List Piece) (rest : List Read) :
    let d := md5.final (md5.update md5.init (pieces.flatMap Piece.bytes))
    calcSig md5 s (some fd) (pieces.map .piece ++ .zero :: rest) =
      some (true, ⟨bigEndian d 0 ^^^ bigEndian d 1, bigEndian d 2 ^^^ bigEndian d 3,
        s.descriptors⟩) := by
  simp only [calcSig, hashLoop_pieces, hashLoop, Option.map_some, signatureOf_eq,
    Finset.erase_insert fd.property]

theorem calcSig_failed (fd : {fd // fd ∉ s.descriptors}) (pieces : List Piece)
    (rest : List Read) :
    calcSig md5 s (some fd) (pieces.map .piece ++ .failed :: rest) =
      some (false, { s with descriptors := insert fd.val s.descriptors }) := by
  simp only [calcSig, hashLoop_pieces, hashLoop, Option.map_some]

/-- However the content is read, the signature is made of the digest of the
whole content; and if the file cannot be opened or any read fails, the two
results stay as they were. -/
theorem signature_of_any_reading {content : Bytes} (reading : Reading content)
    (rest : List Read) :
    let d := md5.final (md5.update md5.init content)
    (∀ fd, ∃ s', calcSig md5 s (some fd) (reading.pieces.map .piece ++ .zero :: rest) =
      some (true, s') ∧ s'.nsig1 = bigEndian d 0 ^^^ bigEndian d 1 ∧
        s'.nsig2 = bigEndian d 2 ^^^ bigEndian d 3) ∧
    (∀ reads, calcSig md5 s none reads = some (false, s)) ∧
    ∀ fd (pieces : List Piece), ∃ s', calcSig md5 s (some fd) (pieces.map .piece ++ .failed :: rest) =
      some (false, s') ∧ s'.nsig1 = s.nsig1 ∧ s'.nsig2 = s.nsig2 := by
  intro d
  refine ⟨fun fd ↦ ?_, fun reads ↦ rfl, fun fd pieces ↦ ?_⟩
  · have hzero := calcSig_zero md5 s fd reading.pieces rest
    rw [reading.whole] at hzero
    exact ⟨_, hzero, rfl, rfl⟩
  · exact ⟨_, calcSig_failed md5 s fd pieces rest, rfl, rfl⟩

/-- The descriptors are the same as before exactly when the file cannot be
opened or no read fails. -/
theorem descriptors_kept_iff (fd : Option {fd // fd ∉ s.descriptors}) (pieces : List Piece)
    (fails : Bool) :
    (∃ ret s', calcSig md5 s fd (pieces.map .piece ++ [if fails then .failed else .zero]) =
      some (ret, s') ∧ s'.descriptors = s.descriptors) ↔ fd = none ∨ fails = false := by
  cases fd with
  | none => exact iff_of_true ⟨false, s, rfl, rfl⟩ (.inl rfl)
  | some fd =>
    cases fails with
    | false => exact iff_of_true ⟨_, _, calcSig_zero md5 s fd pieces [], rfl⟩ (.inr rfl)
    | true =>
      refine iff_of_false ?_ (by simp)
      rintro ⟨ret, s', hout, hkept⟩
      rw [if_pos rfl, calcSig_failed] at hout
      obtain ⟨-, rfl⟩ := Prod.mk.inj (Option.some.inj hout)
      exact fd.property (Finset.insert_eq_self.mp hkept)

end Outcomes

/-- The first read of an opened file fails, and its descriptor 3 stays open. -/
theorem failed_read_leaks :
    ∃ s', calcSig zeroDigest ⟨0, 0, {0, 1, 2}⟩ (some ⟨3, by decide⟩) [.failed] = some (false, s') ∧
      s'.descriptors = {3, 0, 1, 2} ∧ s'.descriptors ≠ {0, 1, 2} :=
  ⟨⟨0, 0, {3, 0, 1, 2}⟩, rfl, rfl, by decide⟩

section Trees

theorem piece_of_data {data : Bytes} (h : data ≠ []) (plan : List (Option ℕ)) :
    data.take (nextCount plan) ≠ [] ∧ (data.take (nextCount plan)).length ≤ bufSize := by
  have hpos := nextCount_pos plan
  have hle : nextCount plan ≤ bufSize := by
    unfold nextCount
    split
    · exact min_le_left ..
    · exact le_rfl
  constructor
  · simp only [ne_eq, List.take_eq_nil_iff, h, or_false]
    omega
  · exact (List.length_take_le _ _).trans hle

def delivered : ℕ → List (Option ℕ) → Bytes → List Read
  | 0, plan, _ => [if plan.head? = some none then .failed else .zero]
  | n + 1, plan, data =>
    if plan.head? = some none then [.failed]
    else if h : data = [] then [.zero]
    else .piece ⟨data.take (nextCount plan), (piece_of_data h plan).1, (piece_of_data h plan).2⟩ ::
      delivered n plan.tail (data.drop (nextCount plan))

variable (md5 : Digest Ctx)

theorem hashLoop_delivered (n : ℕ) (plan : List (Option ℕ)) (data : Bytes) (ctx : Ctx) :
    hashLoop md5 ctx (delivered n plan data) = some (readLoop md5 n plan data ctx) := by
  induction n generalizing plan data ctx with
  | zero =>
    simp only [delivered, readLoop]
    split <;> rfl
  | succ n ih =>
    simp only [delivered, readLoop]
    split
    · rfl
    · split
      · rfl
      · exact ih _ _ _

/-- On the files of a tree this is `calcSig` of the worker's model. -/
theorem calcSig_of_tree (s : Caller) (fd : {fd // fd ∉ s.descriptors}) {cwd : Loc} {path : Str}
    {out : SigReads} {t : Volume Bytes} {data : Bytes} (hopen : out.openRefused = false)
    (hdata : openRead cwd path t = some data) :
    let sig := (ContentSignature.calcSig md5 cwd path out t).1
    calcSig md5 s (some fd) (delivered data.length out.reads data) =
      some (sig.isSome, ⟨(sig.map Prod.fst).getD s.nsig1, (sig.map Prod.snd).getD s.nsig2,
        if FdEvent.closed ∈ (ContentSignature.calcSig md5 cwd path out t).2 then s.descriptors
        else insert fd.val s.descriptors⟩) := by
  simp only [calcSig, hashLoop_delivered, ContentSignature.calcSig, hopen, hdata,
    Bool.false_eq_true, if_false, Option.map_some]
  cases readLoop md5 data.length out.reads data md5.init with
  | none => rfl
  | some ctx => simp [Finset.erase_insert fd.property]

end Trees

end Calcsig.Utils.ReadSequence
