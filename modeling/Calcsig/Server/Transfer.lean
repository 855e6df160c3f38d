import Calcsig.Utils.ContentSignature

namespace Calcsig.Server.Transfer

open Foundation.Text Foundation.FileTree Foundation.FileCalls
open Utils.ContentSignature

/-- A header line as the transfer library hands it over: a pointer and a
length, with some memory behind the line. -/
structure HeaderLine where
  text : Str
  after : Str
deriving DecidableEq

def HeaderLine.memory (line : HeaderLine) : Str := cString (line.text ++ line.after)

def colon : Str := ":".toList

def lengthName : Str := "Content-Length".toList

/-- What a header reader makes of the length known so far; `none` is the
exception of a string built with a length below zero. -/
def scanLength (line : HeaderLine) (known : ℕ) : Option ℕ :=
  match strstr colon line.memory with
  | none => some known
  | some pos =>
    if strstr lengthName line.memory = some 0 then
      if pos + 2 ≤ line.text.length then some (strtoul (line.text.drop (pos + 2))) else none
    else some known

structure DownloadInfo where
  fd : Option Loc
  contentLength : ℕ
  contentRead : ℕ

def headReader (line : HeaderLine) (info : DownloadInfo) : Option DownloadInfo :=
  (scanLength line info.contentLength).map (fun n ↦ { info with contentLength := n })

def written (chunk : Bytes) : Option ℕ → Bytes
  | none => []
  | some n => chunk.take n

structure Download where
  info : DownloadInfo
  tree : Volume Bytes

def dataReader (chunk : Bytes) (write : Option ℕ) (s : Download) : Download where
  info := { s.info with contentRead := (s.info.contentRead + chunk.length) % UInt64.size }
  tree :=
    match s.info.fd with
    | none => s.tree
    | some l => updateFile s.tree l (· ++ written chunk write)

/-- What the transfer library delivers, each chunk with the outcome of the
`write` it meets. -/
inductive Arrival
  | header : HeaderLine → Arrival
  | body : Bytes → Option ℕ → Arrival
deriving DecidableEq

def perform : Download → List Arrival → Bool × Download
  | s, [] => (true, s)
  | s, .header line :: arrivals =>
    match headReader line s.info with
    | none => (false, s)
    | some info => perform { s with info := info } arrivals
  | s, .body chunk write :: arrivals => perform (dataReader chunk write s) arrivals

structure CallbackInfo where
  contentLength : ℕ
  contentRead : ℕ
  content : Str

def callbackHeadReader (line : HeaderLine) (info : CallbackInfo) : Option CallbackInfo :=
  (scanLength line info.contentLength).map (fun n ↦ { info with contentLength := n })

def callbackDataReader (chunk : Str) (info : CallbackInfo) : CallbackInfo :=
  { info with
    content := info.content ++ chunk
    contentRead := (info.contentRead + chunk.length) % UInt64.size }

inductive Answer
  | header : HeaderLine → Answer
  | body : Str → Answer

def performCallback : CallbackInfo → List Answer → Option CallbackInfo
  | info, [] => some info
  | info, .header line :: answers => (callbackHeadReader line info).bind (performCallback · answers)
  | info, .body chunk :: answers => performCallback (callbackDataReader chunk info) answers

/-- The number a header line announces: read from two characters behind its
first colon, if the line begins with the name of the field. -/
def HeaderLine.announces (line : HeaderLine) : Option ℕ :=
  if strstr lengthName line.memory = some 0 then
    (strstr colon line.memory).map (fun pos ↦ strtoul (line.text.drop (pos + 2)))
  else none

def Arrival.announces : Arrival → Option ℕ
  | .header line => line.announces
  | .body _ _ => none

def Arrival.chunk : Arrival → Bytes
  | .header _ => []
  | .body chunk _ => chunk

def Arrival.piece : Arrival → Bytes
  | .header _ => []
  | .body chunk write => written chunk write

def chunks (arrivals : List Arrival) : Bytes := arrivals.flatMap Arrival.chunk

def pieces (arrivals : List Arrival) : Bytes := arrivals.flatMap Arrival.piece

def announced (known : ℕ) (arrivals : List Arrival) : ℕ :=
  (arrivals.filterMap Arrival.announces).getLast?.getD known

def FullWrites (arrivals : List Arrival) : Prop := ∀ a ∈ arrivals, a.piece = a.chunk

instance (arrivals : List Arrival) : Decidable (FullWrites arrivals) :=
  inferInstanceAs (Decidable (∀ a ∈ arrivals, _))

theorem scanLength_eq {line : HeaderLine} {known n : ℕ} (h : scanLength line known = some n) :
    n = line.announces.getD known := by
  unfold scanLength at h
  unfold HeaderLine.announces
  split at h
  · rename_i hpos
    simp only [hpos, Option.map_none, ite_self, Option.getD_none]
    exact (Option.some.inj h).symm
  · rename_i pos hpos
    simp only [hpos, Option.map_some]
    split at h
    · rename_i hname
      rw [if_pos hname]
      split at h
      · exact (Option.some.inj h).symm
      · cases h
    · rename_i hname
      rw [if_neg hname]
      exact (Option.some.inj h).symm

theorem announced_cons (known : ℕ) (a : Arrival) (arrivals : List Arrival) :
    announced known (a :: arrivals) = announced (a.announces.getD known) arrivals := by
  unfold announced
  cases ha : a.announces with
  | none => simp [ha]
  | some n => simp [ha, List.getLast?_cons]

theorem perform_length (s : Download) (arrivals : List Arrival) (h : (perform s arrivals).1 = true) :
    (perform s arrivals).2.info.contentLength = announced s.info.contentLength arrivals := by
  induction arrivals generalizing s with
  | nil => rfl
  | cons a arrivals ih =>
    rw [announced_cons]
    cases a with
    | body chunk write => exact ih _ h
    | header line =>
      cases hs : scanLength line s.info.contentLength with
      | none => simp [perform, headReader, hs] at h
      | some n =>
        simp only [perform, headReader, hs, Option.map_some] at h ⊢
        rw [ih _ h]
        exact congrArg (announced · arrivals) (scanLength_eq hs)

theorem perform_file (s : Download) (arrivals : List Arrival) {l : Loc} {p : Perm} {b : Bytes}
    (hfd : s.info.fd = some l) (hl : s.tree.node l = some (.file p b)) :
    (∃ b', (perform s arrivals).2.tree.node l = some (.file p b') ∧
      ((perform s arrivals).1 = true → b' = b ++ pieces arrivals)) ∧
    ∀ m, m ≠ l → (perform s arrivals).2.tree.node m = s.tree.node m := by
  induction arrivals generalizing s b with
  | nil => exact ⟨⟨b, hl, fun _ ↦ by simp [pieces]⟩, fun _ _ ↦ rfl⟩
  | cons a arrivals ih =>
    cases a with
    | header line =>
      cases hs : headReader line s.info with
      | none =>
        rw [perform, hs]
        exact ⟨⟨b, hl, fun h ↦ by cases h⟩, fun _ _ ↦ rfl⟩
      | some info =>
        have hfd' : info.fd = some l := by
          obtain ⟨n, -, rfl⟩ := Option.map_eq_some_iff.mp hs
          exact hfd
        rw [perform, hs]
        exact ih { s with info := info } hfd' hl
    | body chunk write =>
      have hnode := updateFile_node hl (· ++ written chunk write)
      obtain ⟨⟨b', hb', hpieces⟩, hframe⟩ := ih (dataReader chunk write s) hfd
        (by simpa [dataReader, hfd] using hnode l)
      refine ⟨⟨b', hb', fun h ↦ ?_⟩, fun m hm ↦ ?_⟩
      · rw [hpieces h, List.append_assoc]
        rfl
      · refine (hframe m hm).trans ?_
        simpa [dataReader, hfd, hm] using hnode m

theorem perform_closed (s : Download) (arrivals : List Arrival) (hfd : s.info.fd = none) :
    (perform s arrivals).2.tree = s.tree := by
  induction arrivals generalizing s with
  | nil => rfl
  | cons a arrivals ih =>
    cases a with
    | header line =>
      cases hs : headReader line s.info with
      | none => simp only [perform, hs]
      | some info =>
        have hfd' : info.fd = none := by
          obtain ⟨n, -, rfl⟩ := Option.map_eq_some_iff.mp hs
          exact hfd
        simpa only [perform, hs] using ih { s with info := info } hfd'
    | body chunk write =>
      refine (ih (dataReader chunk write s) hfd).trans ?_
      simp only [dataReader, hfd]

theorem piece_isPrefix (a : Arrival) : a.piece <+: a.chunk := by
  cases a with
  | header line => exact List.prefix_rfl
  | body chunk write =>
    cases write with
    | none => exact List.nil_prefix
    | some n => exact List.take_prefix n chunk

theorem pieces_length_le (arrivals : List Arrival) :
    (pieces arrivals).length ≤ (chunks arrivals).length := by
  induction arrivals with
  | nil => exact le_rfl
  | cons a arrivals ih =>
    have ha := (piece_isPrefix a).length_le
    simp only [pieces, chunks, List.flatMap_cons, List.length_append] at ih ⊢
    omega

theorem pieces_eq_iff (arrivals : List Arrival) :
    pieces arrivals = chunks arrivals ↔ FullWrites arrivals := by
  induction arrivals with
  | nil => simp [pieces, chunks, FullWrites]
  | cons a arrivals ih =>
    have ha := (piece_isPrefix a).length_le
    have hrest := pieces_length_le arrivals
    constructor
    · intro h
      have hlen := congrArg List.length h
      simp only [pieces, chunks, List.flatMap_cons, List.length_append] at hlen hrest
      have heq : a.piece = a.chunk := (piece_isPrefix a).eq_of_length (by omega)
      have htail : pieces arrivals = chunks arrivals := by
        simp only [pieces, chunks, List.flatMap_cons, heq, List.append_cancel_left_eq] at h
        exact h
      exact List.forall_mem_cons.mpr ⟨heq, ih.mp htail⟩
    · intro h
      obtain ⟨heq, htail⟩ := List.forall_mem_cons.mp h
      have hpieces := ih.mpr htail
      simp only [pieces, chunks] at hpieces
      simp only [pieces, chunks, List.flatMap_cons, heq, hpieces]

end Calcsig.Server.Transfer
