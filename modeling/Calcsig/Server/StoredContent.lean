import Calcsig.Server.Worker

namespace Calcsig.Server.StoredContent

open Foundation.Text Foundation.FileTree Foundation.FileCalls Foundation.Documents
open Utils.ContentSignature Utils.SigPath Utils.MoveFile Store.Publishing Transfer Worker

variable {Ctx : Type} (env : Setting Ctx) (task : HttpTask) (o : Outside) (t : Volume Bytes)

def stored (i : Item) (t : Volume Bytes) : Option Bytes :=
  t.content env.cwd (env.basePath ++ "/".toList ++ i.filePath)

/-- Nobody else uses the temporary name: it could be opened, or nothing is
there. -/
def OwnName : Prop :=
  (tmpFile env task o t).1.isSome = true ∨ t.fileAt (lexical env.cwd (tmpRealPath env task o)) = none

def AllWritten : Prop := (tmpFile env task o t).1.isSome = true ∧ FullWrites o.arrivals

section Posted

variable {env task o t} {i : Item}

theorem stored_item (sig : UInt32 × UInt32) (tree : Volume Bytes) :
    stored env (item env task o t sig) tree =
      tree.content env.cwd (targetPath env.basePath sig task.fileFormat) := by
  exact Volume.content_cString tree env.cwd (by simp) _

theorem posted_content (h : (threadWorker env task o t).posted = some i) :
    (download env task o t).1 = true ∧ ∃ b,
      (download env task o t).2.tree.content env.cwd (tmpRealPath env task o) = some b ∧
      (i.fileSig1, i.fileSig2) = signature env.md5 b ∧
      stored env i (threadWorker env task o t).tree = some b ∧
      i.fileSize = announced 0 o.arrivals := by
  obtain ⟨hdown, sig, hsig, hmove, rfl, htree⟩ := posted_cases h
  obtain ⟨b, hread, hb⟩ := calcSig_spec hsig
  have hcontent := content_of_openRead hread
  refine ⟨hdown, b, hcontent, hb, ?_, perform_length _ o.arrivals hdown⟩
  rw [htree, stored_item]
  exact (mvfile_content hmove).trans hcontent

theorem posted_pieces (hown : OwnName env task o t)
    (h : (threadWorker env task o t).posted = some i) :
    (i.fileSig1, i.fileSig2) = signature env.md5 (pieces o.arrivals) ∧
      stored env i (threadWorker env task o t).tree = some (pieces o.arrivals) ∧
      i.fileSize = announced 0 o.arrivals := by
  obtain ⟨hdown, b, hb, hsig, hstored, hsize⟩ := posted_content h
  have hpieces : b = pieces o.arrivals := by
    cases hfd : (tmpFile env task o t).1 with
    | some l =>
      obtain ⟨he, p, b', hn, hb'⟩ := download_file hfd
      rw [Volume.content_entry he, Volume.fileAt, hn] at hb
      rw [← hb' hdown]
      exact (Option.some.inj hb).symm
    | none =>
      have hfree := hown.resolve_left (by simp [hfd])
      obtain ⟨l, hl, hlb⟩ := Option.bind_eq_some_iff.mp hb
      rw [download_none hfd, (tmpDir_onlyDirs env o t).fileAt, Volume.find_lexical hl, hfree] at hlb
      cases hlb
  subst hpieces
  exact ⟨hsig, hstored, hsize⟩

end Posted

/-- The store holds the delivered contents under the posted pair exactly when
every `write` took the whole of its chunk. -/
theorem stored_content_iff (i : Item) (hown : OwnName env task o t)
    (h : (threadWorker env task o t).posted = some i) :
    (stored env i (threadWorker env task o t).tree = some (chunks o.arrivals) ∧
      (i.fileSig1, i.fileSig2) = signature env.md5 (chunks o.arrivals)) ↔
    FullWrites o.arrivals := by
  obtain ⟨hsig, hstored, -⟩ := posted_pieces hown h
  rw [← pieces_eq_iff, hstored]
  constructor
  · intro hc
    exact Option.some.inj hc.1
  · intro hp
    rw [hp] at hsig ⊢
    exact ⟨rfl, hsig⟩

theorem stored_content_iff_instance :
    let o := calm [.body [0x61] (some 1)]
    ∃ i, (threadWorker sampleSetting sampleTask o emptyStore).posted = some i ∧
      stored sampleSetting i (threadWorker sampleSetting sampleTask o emptyStore).tree = some [0x61] := by
  have hpost : (threadWorker sampleSetting sampleTask (calm [.body [0x61] (some 1)]) emptyStore).posted =
      some (item sampleSetting sampleTask (calm [.body [0x61] (some 1)]) emptyStore
        (signature sampleMd5 [0x61])) := by
    decide +kernel
  refine ⟨_, hpost, ?_⟩
  exact ((stored_content_iff sampleSetting sampleTask (calm [.body [0x61] (some 1)]) emptyStore _
    (.inl (by decide +kernel)) hpost).mpr (by decide)).1

theorem truncated_content_posted :
    let o := calm [lengthLine "Content-Length: 2\r\n", .body [0x61, 0x62] (some 1)]
    ∃ i, (threadWorker sampleSetting sampleTask o emptyStore).posted = some i ∧
      stored sampleSetting i (threadWorker sampleSetting sampleTask o emptyStore).tree = some [0x61] ∧
      chunks o.arrivals = [0x61, 0x62] ∧
      (i.fileSig1, i.fileSig2) ≠ signature sampleMd5 [0x61, 0x62] := by
  refine ⟨item sampleSetting sampleTask
    (calm [lengthLine "Content-Length: 2\r\n", .body [0x61, 0x62] (some 1)]) emptyStore
    (signature sampleMd5 [0x61]), ?_⟩
  decide +kernel

/-- The posted size is that of the stored file exactly when the last length
announced in a header is the number of bytes delivered. -/
theorem posted_size_iff (i : Item) (hall : AllWritten env task o t)
    (h : (threadWorker env task o t).posted = some i) :
    (∃ b, stored env i (threadWorker env task o t).tree = some b ∧ i.fileSize = b.length) ↔
      announced 0 o.arrivals = (chunks o.arrivals).length := by
  obtain ⟨-, hstored, hsize⟩ := posted_pieces (.inl hall.1) h
  rw [(pieces_eq_iff o.arrivals).mpr hall.2] at hstored
  rw [hstored, hsize]
  simp

theorem posted_size_iff_instance :
    let o := calm [lengthLine "Content-Length: 1\r\n", .body [0x61] (some 1)]
    ∃ i b, (threadWorker sampleSetting sampleTask o emptyStore).posted = some i ∧
      stored sampleSetting i (threadWorker sampleSetting sampleTask o emptyStore).tree = some b ∧
      i.fileSize = b.length := by
  have hpost : (threadWorker sampleSetting sampleTask
      (calm [lengthLine "Content-Length: 1\r\n", .body [0x61] (some 1)]) emptyStore).posted =
      some (item sampleSetting sampleTask
        (calm [lengthLine "Content-Length: 1\r\n", .body [0x61] (some 1)]) emptyStore
        (signature sampleMd5 [0x61])) := by
    decide +kernel
  have hall : AllWritten sampleSetting sampleTask
      (calm [lengthLine "Content-Length: 1\r\n", .body [0x61] (some 1)]) emptyStore :=
    ⟨by decide +kernel, by decide⟩
  obtain ⟨b, hb, hsize⟩ := (posted_size_iff sampleSetting sampleTask _ emptyStore _ hall hpost).mpr
    (by decide +kernel)
  exact ⟨_, b, hpost, hb, hsize⟩

theorem zero_size_posted :
    let o := calm [lengthLine "Transfer-Encoding: chunked\r\n", .body [0x61] (some 1)]
    ∃ i, (threadWorker sampleSetting sampleTask o emptyStore).posted = some i ∧
      AllWritten sampleSetting sampleTask o emptyStore ∧
      stored sampleSetting i (threadWorker sampleSetting sampleTask o emptyStore).tree = some [0x61] ∧
      i.fileSize = 0 := by
  refine ⟨item sampleSetting sampleTask
    (calm [lengthLine "Transfer-Encoding: chunked\r\n", .body [0x61] (some 1)]) emptyStore
    (signature sampleMd5 [0x61]), by decide +kernel,
    ⟨by decide +kernel, by decide⟩, by decide +kernel⟩

end Calcsig.Server.StoredContent
