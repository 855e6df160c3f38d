import Calcsig.Utils.MakeDirs

namespace Calcsig.Utils.RedundantSlashes

open Foundation.Text Foundation.FileTree Foundation.FileCalls Foundation.Programs
open Utils.MoveFile Utils.MakeDirs

variable {β : Type}

/-- The path without trailing slashes and with runs of slashes collapsed: a
slash goes where nothing or another slash follows. -/
def tidy : Str → Str
  | [] => []
  | c :: s =>
    if c = '/' ∧ (tidy s = [] ∨ (tidy s).head? = some '/') then tidy s else c :: tidy s

def named (cs : List Str) : List Str := cs.filter (· ≠ [])

/-- Below a directory that is still to be made, a redundant slash is harmless
only right in front of `.` or `..`, and behind those nothing matters. -/
def safeBelow : List Str → Bool
  | [] => true
  | c :: cs =>
    if c = [] then
      match named cs with
      | [] => false
      | d :: _ => !decide (ProperName d)
    else if ProperName c then safeBelow cs else true

/-- Along existing directories redundant slashes are harmless, and so they are
behind a regular file. -/
def safeSlashes (t : Volume β) : Loc → List Str → Bool
  | _, [] => true
  | l, c :: cs =>
    if t.isDir l then
      if (t.node (descend l c)).isSome then safeSlashes t (descend l c) cs else safeBelow cs
    else true

theorem named_empty (cs : List Str) : named ([] :: cs) = named cs := by simp [named]

theorem named_cons {c : Str} (hc : c ≠ []) (cs : List Str) : named (c :: cs) = c :: named cs := by
  simp [named, hc]

section Tidy

theorem splitOn_slash (s : Str) : ∃ d ds, s.splitOn '/' = d :: ds :=
  List.exists_cons_of_ne_nil (List.splitOn_ne_nil '/' s)

theorem splitOn_head_nil {s d : Str} {ds : List Str} (h : s.splitOn '/' = d :: ds) :
    d = [] ↔ s = [] ∨ s.head? = some '/' := by
  cases s with
  | nil =>
    simp only [List.splitOn_nil, List.cons.injEq] at h
    simp [← h.1]
  | cons x s =>
    obtain ⟨e, es, he⟩ := splitOn_slash s
    rw [List.splitOn_cons_eq_if_modifyHead, he] at h
    by_cases hx : x = '/'
    · simp_all
    · simp only [beq_iff_eq, hx, if_false, List.modifyHead_cons, List.cons.injEq] at h
      simp [← h.1, hx]

theorem splitOn_tidy {s d : Str} {ds : List Str} (h : s.splitOn '/' = d :: ds) :
    (tidy s).splitOn '/' = d :: named ds := by
  induction s generalizing d ds with
  | nil =>
    simp only [List.splitOn_nil, List.cons.injEq] at h
    simp [tidy, ← h.1, ← h.2, named]
  | cons x s ih =>
    obtain ⟨e, es, he⟩ := splitOn_slash s
    have hrest := ih he
    rw [List.splitOn_cons_eq_if_modifyHead, he] at h
    by_cases hx : x = '/'
    · simp only [hx, beq_self_eq_true, if_true, List.cons.injEq] at h
      obtain ⟨rfl, rfl⟩ := h
      by_cases hd : e = []
      · rw [tidy, if_pos ⟨hx, (splitOn_head_nil hrest).mp hd⟩, hrest, hd, named_empty]
      · rw [tidy, if_neg (fun hc ↦ hd ((splitOn_head_nil hrest).mpr hc.2)),
          List.splitOn_cons_eq_if_modifyHead, hrest, named_cons hd]
        simp [hx]
    · simp only [beq_iff_eq, hx, if_false, List.modifyHead_cons, List.cons.injEq] at h
      rw [tidy, if_neg (fun hc ↦ hx hc.1), List.splitOn_cons_eq_if_modifyHead, hrest]
      simp [hx, ← h.1, ← h.2]

theorem tidy_sublist (s : Str) : (tidy s).Sublist s := by
  induction s with
  | nil => exact .slnil
  | cons c s ih =>
    unfold tidy
    split
    · exact ih.cons c
    · exact ih.cons_cons c

theorem tidy_head {s : Str} (h : tidy s ≠ []) : (tidy s).head? = s.head? := by
  cases s with
  | nil => rfl
  | cons c s =>
    unfold tidy at h ⊢
    split
    · rename_i hc
      rw [if_pos hc] at h
      rw [hc.2.resolve_left h, hc.1]
      rfl
    · rfl

end Tidy

section Following

variable {cwd : Loc} {t t' : Volume β} {l : Loc} {p : Perm}

theorem foldl_stuck (p : Perm) (t t' : Volume β) (cs : List Str) :
    cs.foldl (advance p t) (.stuck t') = .stuck t' := by
  induction cs with
  | nil => rfl
  | cons c cs ih => exact ih

theorem foldl_file (h : ¬ t.isDir l = true) (p : Perm) (cs : List Str) :
    (cs.foldl (advance p t) (.there l)).result t = (-1, t) := by
  cases cs with
  | nil => rfl
  | cons c cs =>
    rw [List.foldl_cons, advance, if_neg h, foldl_stuck]
    rfl

theorem foldl_made (hp : p.write = true ∧ p.exec = true) (hl : t.node l = none)
    (h : Filled p t l t') (cs : List Str) :
    ((cs.foldl (advance p t) (.made l t')).result t).2.node l ≠ none := by
  suffices hfilled : ∃ m, l <:+ m ∧
      Filled p t m ((cs.foldl (advance p t) (.made l t')).result t).2 by
    obtain ⟨m, hm, hfilled⟩ := hfilled
    rw [hfilled l, if_pos ⟨hl, hm⟩]
    simp
  induction cs generalizing l t' with
  | nil => exact ⟨l, List.suffix_rfl, h⟩
  | cons c cs ih =>
    rw [List.foldl_cons, advance]
    split
    · obtain ⟨m, hm, hfilled⟩ := ih (node_child_none hl c) (filled_next hp hl h c)
      exact ⟨m, (List.suffix_cons c l).trans hm, hfilled⟩
    · rw [foldl_stuck]
      exact ⟨l, List.suffix_rfl, h⟩

theorem made_iff (hp : p.write = true ∧ p.exec = true) (hl : t.node l = none)
    (h : Filled p t l t') (cs : List Str) :
    (cs.foldl (advance p t) (.made l t')).result t =
        ((named cs).foldl (advance p t) (.made l t')).result t ↔ safeBelow cs = true := by
  induction cs generalizing l t' with
  | nil => simp [named, safeBelow]
  | cons c cs ih =>
    by_cases hc : c = []
    · subst hc
      have hslash : advance p t (.made l t') [] = .stuck t' := by simp [advance, ProperName]
      rw [List.foldl_cons, hslash, foldl_stuck, named_empty, safeBelow, if_pos rfl]
      cases hrest : named cs with
      | nil => simp [Progress.result]
      | cons d ds =>
        rw [List.foldl_cons, advance]
        by_cases hd : ProperName d
        · have hnew := foldl_made hp (node_child_none hl d) (filled_next hp hl h d) ds
          simp only [hd, if_true, decide_true, Bool.not_true, Bool.false_eq_true, iff_false]
          intro he
          rw [← he] at hnew
          exact hnew (h.node_child hl d)
        · simp only [hd, if_false, foldl_stuck, decide_false, Bool.not_false]
    · rw [named_cons hc, List.foldl_cons, List.foldl_cons, safeBelow, if_neg hc, advance]
      split
      · exact ih (node_child_none hl c) (filled_next hp hl h c)
      · simp only [foldl_stuck]

theorem there_iff (ht : Accessible cwd t) (hp : p.write = true ∧ p.exec = true)
    (hl : t.node l ≠ none) (cs : List Str) :
    (cs.foldl (advance p t) (.there l)).result t =
        ((named cs).foldl (advance p t) (.there l)).result t ↔ safeSlashes t l cs = true := by
  induction cs generalizing l with
  | nil => simp [named, safeSlashes]
  | cons c cs ih =>
    by_cases hdir : t.isDir l = true
    · rw [safeSlashes, if_pos hdir]
      by_cases hc : c = []
      · subst hc
        have hstay : descend l [] = l := by simp [descend]
        rw [named_empty, List.foldl_cons, advance_empty hdir, hstay,
          if_pos (Option.isSome_iff_ne_none.mpr hl)]
        exact ih hl
      · rw [named_cons hc, List.foldl_cons, List.foldl_cons, advance, if_pos hdir]
        by_cases hex : t.node (descend l c) = none
        · have hplace := descend_proper (proper_of_missing hl hex) l
          rw [if_neg (by simp [hex]), if_neg (by simp [hex])]
          rw [hplace] at hex ⊢
          exact made_iff hp hex (filled_first (ht.modifiable l hdir) hex p) cs
        · rw [if_pos (Option.isSome_iff_ne_none.mpr hex), if_pos (Option.isSome_iff_ne_none.mpr hex)]
          exact ih hex
    · rw [foldl_file hdir, foldl_file hdir, safeSlashes, if_neg hdir]
      simp

end Following

theorem foldl_tidy {cwd : Loc} {t : Volume β} (ht : Accessible cwd t) (p : Perm) {path : Str}
    (hnul : nul ∉ path) :
    ((components (tidy path)).foldl (advance p t) (.there (origin cwd (tidy path)))).result t =
      ((named (components path)).foldl (advance p t) (.there (origin cwd path))).result t := by
  obtain ⟨d, ds, hd⟩ := splitOn_slash path
  have hpath : components path = d :: ds := by rw [components, cString_of_nul_free hnul, hd]
  have htidy : components (tidy path) = d :: named ds := by
    rw [components, cString_of_nul_free (fun h ↦ hnul ((tidy_sublist path).subset h)),
      splitOn_tidy hd]
  have hdir := isDir_origin ht (tidy path)
  rw [hpath, htidy]
  by_cases hempty : tidy path = []
  · have hnil : d = [] ∧ named ds = [] := by
      have h := splitOn_tidy hd
      rw [hempty, List.splitOn_nil, List.cons.injEq] at h
      exact ⟨h.1.symm, h.2.symm⟩
    rw [hnil.1, named_empty, hnil.2, List.foldl_cons, advance_empty hdir]
    rfl
  · have horigin : origin cwd (tidy path) = origin cwd path := by
      simp only [origin, tidy_head hempty]
    rw [horigin] at hdir ⊢
    by_cases hc : d = []
    · rw [hc, named_empty, List.foldl_cons, advance_empty hdir]
    · rw [named_cons hc]

/-- Redundant slashes make no difference to `mkdirs` exactly when none of them
comes behind a directory it has to make, other than right in front of `.` or `..`. -/
theorem mkdirs_tidy_iff {cwd : Loc} {t : Volume β} (ht : Accessible cwd t) {mode : ℕ}
    (hmode : Grants mode) {path : Str} (hnul : nul ∉ path) :
    (mkdirs path mode).exec (answer cwd) t = (mkdirs (tidy path) mode).exec (answer cwd) t ↔
      safeSlashes t (origin cwd path) (components path) = true := by
  have hnul' : nul ∉ tidy path := fun h ↦ hnul ((tidy_sublist path).subset h)
  rw [exec_mkdirs ht hmode hnul, exec_mkdirs ht hmode hnul', foldl_tidy ht _ hnul]
  exact there_iff ht hmode (node_origin_ne_none ht path) (components path)

theorem mkdirs_tidy_root :
    (mkdirs "//a".toList 0o700).exec (answer []) (Volume.bare : Volume ℕ) =
      (mkdirs (tidy "//a".toList) 0o700).exec (answer []) Volume.bare :=
  (mkdirs_tidy_iff accessible_bare (by decide) (by decide)).mpr (by decide +kernel)

def tmpRealDir : Str := "/data/ftserver//tmp/".toList

theorem mkdirs_slash_differs :
    Accessible [] (Volume.bare : Volume ℕ) ∧ Grants 0o700 ∧ nul ∉ tmpRealDir ∧
      tidy tmpRealDir = "/data/ftserver/tmp".toList ∧
      ((mkdirs tmpRealDir 0o700).exec (answer []) (Volume.bare : Volume ℕ)).1 = -1 ∧
      ((mkdirs (tidy tmpRealDir) 0o700).exec (answer []) (Volume.bare : Volume ℕ)).1 = 0 :=
  ⟨accessible_bare, by decide, by decide, by decide +kernel, by decide +kernel, by decide +kernel⟩

end Calcsig.Utils.RedundantSlashes
