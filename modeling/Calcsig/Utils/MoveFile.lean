import Calcsig.Foundation.FileCalls

namespace Calcsig.Utils.MoveFile

open Foundation.Text Foundation.FileTree Foundation.FileCalls Foundation.Programs

variable {β : Type}

def writeSearch : Perm := ⟨false, true, true⟩

def makeLast (pathname : Str) (mode : ℕ) : Prog SysCall ℤ :=
  .call (.mkdir pathname mode) (fun ok ↦ .ret (if ok then 0 else -1))

def mkdirsWithin (mode : ℕ) : ℕ → Str → Prog SysCall ℤ
  | 0, pathname => makeLast pathname mode
  | n + 1, pathname =>
    match rfind '/' pathname with
    | none => makeLast pathname mode
    | some pos =>
      if pathname.take pos = [] then makeLast pathname mode
      else .call (.access (pathname.take pos) writeSearch) (fun ok ↦
        if ok then makeLast pathname mode
        else (mkdirsWithin mode n (pathname.take pos)).bind (fun r ↦
          if r ≠ 0 then .ret (-1) else makeLast pathname mode))

def mkdirs (pathname : Str) (mode : ℕ) : Prog SysCall ℤ :=
  mkdirsWithin mode pathname.length pathname

theorem take_length_lt {pathname : Str} {pos : ℕ} (h : rfind '/' pathname = some pos) :
    (pathname.take pos).length < pathname.length := by
  obtain ⟨s, -, he⟩ := rfind_split h
  have hlen := congrArg List.length he
  simp only [List.length_append, List.length_cons] at hlen
  omega

theorem mkdirsWithin_stable (mode : ℕ) (n n' : ℕ) (pathname : Str) (hn : pathname.length ≤ n)
    (hn' : pathname.length ≤ n') : mkdirsWithin mode n pathname = mkdirsWithin mode n' pathname := by
  induction n generalizing n' pathname with
  | zero =>
    obtain rfl : pathname = [] := List.length_eq_zero_iff.mp (by omega)
    cases n' <;> simp [mkdirsWithin, rfind]
  | succ n ih =>
    cases n' with
    | zero =>
      obtain rfl : pathname = [] := List.length_eq_zero_iff.mp (by omega)
      simp [mkdirsWithin, rfind]
    | succ n' =>
      cases hr : rfind '/' pathname with
      | none => simp only [mkdirsWithin, hr]
      | some pos =>
        have hlt := take_length_lt hr
        simp only [mkdirsWithin, hr]
        rw [ih n' (pathname.take pos) (by omega) (by omega)]

theorem mkdirs_eq (pathname : Str) (mode : ℕ) :
    mkdirs pathname mode =
      match rfind '/' pathname with
      | none => makeLast pathname mode
      | some pos =>
        if pathname.take pos = [] then makeLast pathname mode
        else .call (.access (pathname.take pos) writeSearch) (fun ok ↦
          if ok then makeLast pathname mode
          else (mkdirs (pathname.take pos) mode).bind (fun r ↦
            if r ≠ 0 then .ret (-1) else makeLast pathname mode)) := by
  have hs := mkdirsWithin_stable mode pathname.length (pathname.length + 1) pathname le_rfl (by omega)
  rw [mkdirs, hs]
  cases hr : rfind '/' pathname with
  | none => simp only [mkdirsWithin, hr]
  | some pos =>
    have hlt := take_length_lt hr
    simp only [mkdirsWithin, hr, mkdirs]
    rw [mkdirsWithin_stable mode pathname.length (pathname.take pos).length (pathname.take pos)
      (by omega) le_rfl]

def ensureParent (dst : Str) : Prog SysCall ℤ :=
  match rfind '/' dst with
  | none => .ret 0
  | some pos => .call (.access (dst.take pos) writeSearch) (fun ok ↦
      if ok then .ret 0
      else (mkdirs (dst.take pos) 0o775).bind (fun r ↦ .ret (if r ≠ 0 then -1 else 0)))

def mvfile (src dst : Str) : Prog SysCall ℤ :=
  .call (.access src ⟨false, true, false⟩) (fun ok ↦
    if ok = false then .ret (-1)
    else (ensureParent dst).bind (fun r ↦
      if r ≠ 0 then .ret (-1)
      else .call (.rename src dst) (fun ok ↦ .ret (if ok then 0 else -1))))

theorem makeLast_only (pathname : Str) (mode : ℕ) :
    (makeLast pathname mode).Only (fun c ↦ ¬ c.IsRename) :=
  ⟨id, fun _ ↦ trivial⟩

theorem mkdirsWithin_only (mode n : ℕ) (pathname : Str) :
    (mkdirsWithin mode n pathname).Only (fun c ↦ ¬ c.IsRename) := by
  induction n generalizing pathname with
  | zero => exact makeLast_only pathname mode
  | succ n ih =>
    simp only [mkdirsWithin]
    split
    · exact makeLast_only pathname mode
    · split
      · exact makeLast_only pathname mode
      · refine ⟨id, fun ok ↦ ?_⟩
        cases ok with
        | true => exact makeLast_only pathname mode
        | false =>
          refine (ih _).bind (fun r ↦ ?_)
          split
          · trivial
          · exact makeLast_only pathname mode

theorem ensureParent_only (dst : Str) :
    (ensureParent dst).Only (fun c ↦ ¬ c.IsRename) := by
  unfold ensureParent
  split
  · trivial
  · refine ⟨id, fun ok ↦ ?_⟩
    cases ok with
    | true => trivial
    | false => exact (mkdirsWithin_only _ _ _).bind (fun r ↦ trivial)

/-- Whatever calls are refused, `mvfile` either answers `-1` and has at most
added directories, or answers `0` and its last step was the rename. -/
theorem mvfile_spec (cwd : Loc) (src dst : Str) (faults : List Bool) (t : Volume β) :
    let out := (mvfile src dst).exec (faulty (answer cwd)) (faults, t)
    out.1 = -1 ∧ OnlyDirs t out.2.2 ∨
      out.1 = 0 ∧ ∃ t₁ s d, OnlyDirs t t₁ ∧ t.entry cwd src = some s ∧
        t₁.entry cwd dst = some d ∧ Moved t₁ out.2.2 s d := by
  intro out
  obtain ⟨hsame, hchecked⟩ := faulty_access_cases cwd src ⟨false, true, false⟩ (faults, t)
  set checked := faulty (answer cwd) (.access src ⟨false, true, false⟩) (faults, t) with hdef
  rcases hchecked with hno | ⟨hyes, l, hl⟩
  · have hout : out = (-1, checked.2) := by
      simp only [out, mvfile, Prog.exec_call, ← hdef, hno, if_true, Prog.exec_ret]
    rw [hout, hsame]
    exact .inl ⟨rfl, .refl t⟩
  · have hgrow := exec_onlyDirs cwd (ensureParent dst) (ensureParent_only dst) checked.2
    rw [hsame] at hgrow
    set parent := (ensureParent dst).exec (faulty (answer cwd)) checked.2 with hparent
    have hout : out = (if parent.1 ≠ 0 then Prog.ret (-1) else
        Prog.call (.rename src dst) (fun ok ↦ .ret (if ok then 0 else -1))).exec
          (faulty (answer cwd)) parent.2 := by
      simp only [out, mvfile, Prog.exec_call, ← hdef, hyes, Bool.true_eq_false, if_false,
        Prog.exec_bind, ← hparent]
    by_cases hmade : parent.1 = 0
    · rw [if_neg (not_not.mpr hmade), Prog.exec_call, Prog.exec_ret] at hout
      rcases faulty_rename_cases cwd src dst parent.2 with ⟨hr, he⟩ | ⟨hr, s, d, hs, hd, hmoved⟩
      · rw [hout, hr, he]
        exact .inl ⟨rfl, hgrow⟩
      · obtain rfl : l = s := (Volume.find_lexical hl).trans (Volume.entry_lexical hs).symm
        rw [hout, hr]
        exact .inr ⟨rfl, parent.2.2, l, d, hgrow, Volume.find_entry hs hl, hd, hmoved⟩
    · rw [if_pos hmade, Prog.exec_ret] at hout
      rw [hout]
      exact .inl ⟨rfl, hgrow⟩

theorem mvfile_content {cwd : Loc} {src dst : Str} {faults : List Bool} {t : Volume β}
    (h : ((mvfile src dst).exec (faulty (answer cwd)) (faults, t)).1 = 0) :
    ((mvfile src dst).exec (faulty (answer cwd)) (faults, t)).2.2.content cwd dst =
      t.content cwd src := by
  rcases mvfile_spec cwd src dst faults t with ⟨hr, -⟩ | ⟨-, t₁, s, d, hgrow, hs, hd, hmoved⟩
  · rw [h] at hr
    cases hr
  · rw [Volume.content_entry (hmoved.keepsDirs.slot hd), Volume.content_entry hs, hmoved.fileAt_dst,
      hgrow.fileAt]

theorem mvfile_moved {cwd : Loc} {src dst : Str} {t t₁ t' : Volume β} {s d : Loc} {b : β}
    (hb : t.content cwd src = some b) (hne : lexical cwd src ≠ lexical cwd dst)
    (hgrow : OnlyDirs t t₁) (hs : t.entry cwd src = some s) (hd : t₁.entry cwd dst = some d)
    (hmoved : Moved t₁ t' s d) :
    t'.content cwd dst = some b ∧ t'.node (lexical cwd src) = none ∧
      ∀ l, l ≠ lexical cwd src → l ≠ lexical cwd dst → t'.fileAt l = t.fileAt l := by
  rw [← Volume.entry_lexical hs, ← Volume.entry_lexical hd] at hne ⊢
  refine ⟨?_, hmoved.leaves hne, fun l hls hld ↦ ?_⟩
  · rw [Volume.content_entry (hmoved.keepsDirs.slot hd), hmoved.fileAt_dst, hgrow.fileAt,
      ← Volume.content_entry hs, hb]
  · rw [hmoved.fileAt_of_ne hls hld, hgrow.fileAt]

/-- Whatever calls are refused: after `-1` nothing but new directories has come,
and after `0` the file has moved and every other file is as it was. -/
theorem mvfile_all_or_nothing (cwd : Loc) (src dst : Str) (faults : List Bool) (t : Volume β)
    {b : β} (hsrc : t.content cwd src = some b) (hne : lexical cwd src ≠ lexical cwd dst) :
    let out := (mvfile src dst).exec (faulty (answer cwd)) (faults, t)
    let t' := out.2.2
    (out.1 = -1 ∧ OnlyDirs t t' ∧ ∀ l, t'.fileAt l = t.fileAt l) ∨
      (out.1 = 0 ∧ t'.content cwd dst = some b ∧ t'.node (lexical cwd src) = none ∧
        ∀ l, l ≠ lexical cwd src → l ≠ lexical cwd dst → t'.fileAt l = t.fileAt l) := by
  intro out t'
  rcases mvfile_spec cwd src dst faults t with ⟨hr, hgrow⟩ | ⟨hr, t₁, s, d, hgrow, hs, hd, hmoved⟩
  · exact .inl ⟨hr, hgrow, hgrow.fileAt⟩
  · exact .inr ⟨hr, mvfile_moved hsrc hne hgrow hs hd hmoved⟩

def singleFile : Volume ℕ := storeFile Volume.bare ["a".toList] ⟨true, true, false⟩ 7

theorem mvfile_all_or_nothing_instance :
    let out := (mvfile "a".toList "b/c".toList).exec (faulty (answer [])) ([], singleFile)
    out.1 = 0 ∧ out.2.2.content [] "b/c".toList = some 7 ∧
      out.2.2.node (lexical [] "a".toList) = none := by
  have hzero :
      ((mvfile "a".toList "b/c".toList).exec (faulty (answer [])) ([], singleFile)).1 = 0 := by
    decide +kernel
  rcases mvfile_all_or_nothing [] "a".toList "b/c".toList [] singleFile (b := 7) (by decide +kernel)
    (by decide +kernel) with ⟨hr, -⟩ | ⟨hr, hcontent, hgone, -⟩
  · exact absurd (hzero.symm.trans hr) (by decide)
  · exact ⟨hr, hcontent, hgone⟩

end Calcsig.Utils.MoveFile
