import Calcsig.Foundation.FileTree
import Calcsig.Foundation.Programs

namespace Calcsig.Foundation.FileCalls

open Text FileTree Programs

variable {β : Type}

/-- The new tree has the old entries and otherwise only new directories. -/
structure OnlyDirs (t t' : Volume β) : Prop where
  keeps : ∀ {l n}, t.node l = some n → t'.node l = some n
  adds : ∀ {l n}, t.node l = none → t'.node l = some n → ∃ p, n = .dir p

theorem OnlyDirs.refl (t : Volume β) : OnlyDirs t t :=
  ⟨id, fun h h' ↦ by simp [h] at h'⟩

theorem OnlyDirs.trans {t t' t'' : Volume β} (h : OnlyDirs t t') (h' : OnlyDirs t' t'') :
    OnlyDirs t t'' := by
  refine ⟨fun hn ↦ h'.keeps (h.keeps hn), fun {l n} hl hn ↦ ?_⟩
  cases hm : t'.node l with
  | none => exact h'.adds hm hn
  | some m =>
    obtain rfl : m = n := Option.some.inj ((h'.keeps hm).symm.trans hn)
    exact h.adds hl hm

theorem OnlyDirs.fileAt {t t' : Volume β} (h : OnlyDirs t t') (l : Loc) :
    t'.fileAt l = t.fileAt l := by
  cases hl : t.node l with
  | some n => simp only [Volume.fileAt, hl, h.keeps hl]
  | none =>
    cases hl' : t'.node l with
    | none => simp only [Volume.fileAt, hl, hl']
    | some n =>
      obtain ⟨p, rfl⟩ := h.adds hl hl'
      simp only [Volume.fileAt, hl, hl']

def KeepsDirs (t t' : Volume β) : Prop :=
  ∀ ⦃l p⦄, t.node l = some (.dir p) → t'.node l = some (.dir p)

theorem KeepsDirs.refl (t : Volume β) : KeepsDirs t t := fun _ _ h ↦ h

theorem KeepsDirs.trans {t t' t'' : Volume β} (h : KeepsDirs t t') (h' : KeepsDirs t' t'') :
    KeepsDirs t t'' := fun _ _ hl ↦ h' (h hl)

theorem OnlyDirs.keepsDirs {t t' : Volume β} (h : OnlyDirs t t') : KeepsDirs t t' := fun _ _ hl ↦ h.keeps hl

theorem KeepsDirs.isDir {t t' : Volume β} (h : KeepsDirs t t') {l : Loc} (hl : t.isDir l = true) :
    t'.isDir l = true := by
  obtain ⟨p, hp⟩ := Volume.dir_of_isDir hl
  simp only [Volume.isDir, h hp]

theorem KeepsDirs.searchable {t t' : Volume β} (h : KeepsDirs t t') {l : Loc}
    (hl : t.searchable l = true) : t'.searchable l = true := by
  obtain ⟨p, hp, hx⟩ := Volume.dir_of_searchable hl
  simp only [Volume.searchable, h hp, hx]

theorem KeepsDirs.modifiable {t t' : Volume β} (h : KeepsDirs t t') {l : Loc}
    (hl : t.modifiable l = true) : t'.modifiable l = true := by
  obtain ⟨p, hp, hw, hx⟩ := Volume.dir_of_modifiable hl
  simp only [Volume.modifiable, h hp, hw, hx, Bool.and_self]

theorem KeepsDirs.walk {t t' : Volume β} (h : KeepsDirs t t') {l l' : Loc} {cs : List Str}
    (hw : t.walk l cs = some l') : t'.walk l cs = some l' := by
  induction cs generalizing l with
  | nil => exact hw
  | cons c cs ih =>
    simp only [Volume.walk] at hw ⊢
    split at hw
    · rename_i hs
      rw [if_pos (h.searchable hs)]
      exact ih hw
    · cases hw

theorem KeepsDirs.slot {t t' : Volume β} (h : KeepsDirs t t') {l l' : Loc} {cs : List Str}
    (hs : t.slot l cs = some l') : t'.slot l cs = some l' := by
  obtain ⟨cs', c, m, rfl, hc, hw, hm, rfl⟩ := Volume.slot_split hs
  simp [Volume.slot_append_proper _ _ _ hc, h.walk hw, h.searchable hm]

theorem KeepsDirs.find {t t' : Volume β} (h : KeepsDirs t t') {cwd l : Loc} {path : Str}
    (hf : t.find cwd path = some l) : t'.find cwd path = some l := by
  unfold Volume.find at hf ⊢
  split at hf
  · cases hf
  · rename_i hn
    rw [if_neg hn]
    exact h.walk hf

def access (cwd : Loc) (path : Str) (want : Perm) (t : Volume β) : Bool :=
  match (t.find cwd path).bind t.node with
  | some n => n.perm.allows want
  | none => false

theorem find_of_access {cwd : Loc} {path : Str} {want : Perm} {t : Volume β}
    (h : access cwd path want t = true) : ∃ l, t.find cwd path = some l := by
  unfold access at h
  cases hf : t.find cwd path with
  | none => simp [hf] at h
  | some l => exact ⟨l, rfl⟩

def makeDir (t : Volume β) (l : Loc) (p : Perm) : Bool × Volume β :=
  if h : l ≠ [] ∧ (t.node l).isNone = true ∧ t.modifiable l.tail = true then
    (true, t.set l (some (.dir p)) ⟨h.1, by simp [Option.isNone_iff_eq_none.mp h.2.1], fun _ ↦
      (Volume.dir_of_modifiable h.2.2).imp fun _ hp ↦ hp.1⟩)
  else (false, t)

def mkdir (cwd : Loc) (path : Str) (mode : ℕ) (t : Volume β) : Bool × Volume β :=
  match t.dirEntry cwd path with
  | some l => makeDir t l (Perm.ofMode mode)
  | none => (false, t)

/-- Renaming of a regular file: the destination may be missing or another
regular file, which is then replaced. -/
def moveFile (t : Volume β) (s d : Loc) : Bool × Volume β :=
  if h : t.isFile s = true ∧ s ≠ d ∧ d ≠ [] ∧ t.isDir d = false ∧
      t.modifiable s.tail = true ∧ t.modifiable d.tail = true then
    have hd : t.Settable d (t.node s) := ⟨h.2.2.1, fun p hp ↦ by
      simpa [Volume.isDir, hp] using h.2.2.2.1, fun _ ↦
      (Volume.dir_of_modifiable h.2.2.2.2.2).imp fun _ hp ↦ hp.1⟩
    (true, (t.set d (t.node s) hd).set s none ⟨fun hs ↦ by
      obtain ⟨p, hp⟩ := t.root_dir
      simpa [Volume.isFile, hs, hp] using h.1, fun p hp ↦ by
      rw [Volume.set_of_ne _ _ _ h.2.1] at hp
      simpa [Volume.isFile, hp] using h.1, fun hn ↦ absurd rfl hn⟩)
  else (decide (s = d) && t.isFile s, t)

def rename (cwd : Loc) (src dst : Str) (t : Volume β) : Bool × Volume β :=
  match t.entry cwd src, t.entry cwd dst with
  | some s, some d => moveFile t s d
  | _, _ => (false, t)

def removeFile (t : Volume β) (l : Loc) : Bool × Volume β :=
  if h : t.isFile l = true ∧ t.modifiable l.tail = true then
    (true, t.set l none ⟨fun hl ↦ by
      obtain ⟨p, hp⟩ := t.root_dir
      simpa [Volume.isFile, hl, hp] using h.1, fun p hp ↦ by
      simpa [Volume.isFile, hp] using h.1, fun hn ↦ absurd rfl hn⟩)
  else (false, t)

def remove (cwd : Loc) (path : Str) (t : Volume β) : Bool × Volume β :=
  match t.entry cwd path with
  | some l => removeFile t l
  | none => (false, t)

def storeFile (t : Volume β) (l : Loc) (p : Perm) (b : β) : Volume β :=
  if h : l ≠ [] ∧ t.isDir l = false ∧ t.isDir l.tail = true then
    t.set l (some (.file p b)) ⟨h.1, fun q hq ↦ by simpa [Volume.isDir, hq] using h.2.1,
      fun _ ↦ Volume.dir_of_isDir h.2.2⟩
  else t

/-- Opening for writing creates a missing file and empties an existing one. -/
def openTrunc (cwd : Loc) (path : Str) (mode : ℕ) (empty : β) (t : Volume β) :
    Option Loc × Volume β :=
  match t.entry cwd path with
  | none => (none, t)
  | some l =>
    match t.node l with
    | none =>
      if t.modifiable l.tail then (some l, storeFile t l (Perm.ofMode mode) empty) else (none, t)
    | some (.file p _) => if p.write then (some l, storeFile t l p empty) else (none, t)
    | some (.dir _) => (none, t)

def updateFile (t : Volume β) (l : Loc) (f : β → β) : Volume β :=
  match t.node l with
  | some (.file p b) => storeFile t l p (f b)
  | _ => t

def openRead (cwd : Loc) (path : Str) (t : Volume β) : Option β :=
  match (t.find cwd path).bind t.node with
  | some (.file p b) => if p.read then some b else none
  | _ => none

structure DirMade (t t' : Volume β) (l : Loc) (p : Perm) : Prop where
  fresh : t.node l = none
  parent : t.modifiable l.tail = true
  made : t'.node l = some (.dir p)
  frame : ∀ m, m ≠ l → t'.node m = t.node m

theorem makeDir_cases (t : Volume β) (l : Loc) (p : Perm) :
    makeDir t l p = (false, t) ∨ (makeDir t l p).1 = true ∧ DirMade t (makeDir t l p).2 l p := by
  unfold makeDir
  split
  · rename_i h
    refine .inr ⟨rfl, Option.isNone_iff_eq_none.mp h.2.1, h.2.2, by simp, fun m hm ↦ ?_⟩
    rw [Volume.set_of_ne _ _ _ hm]
  · exact .inl rfl

theorem makeDir_made {t : Volume β} {l : Loc} (hl : l ≠ []) (hfresh : t.node l = none)
    (hparent : t.modifiable l.tail = true) (p : Perm) :
    (makeDir t l p).1 = true ∧ DirMade t (makeDir t l p).2 l p := by
  have hok : (makeDir t l p).1 = true := by simp [makeDir, hl, hfresh, hparent]
  refine ⟨hok, ?_⟩
  rcases makeDir_cases t l p with he | ⟨-, h⟩
  · rw [he] at hok
    cases hok
  · exact h

theorem mkdir_cases (cwd : Loc) (path : Str) (mode : ℕ) (t : Volume β) :
    mkdir cwd path mode t = (false, t) ∨
      ∃ l, t.dirEntry cwd path = some l ∧ (mkdir cwd path mode t).1 = true ∧
        DirMade t (mkdir cwd path mode t).2 l (Perm.ofMode mode) := by
  unfold mkdir
  cases hl : t.dirEntry cwd path with
  | none => exact .inl rfl
  | some l => exact (makeDir_cases t l _).imp_right (fun h ↦ ⟨l, rfl, h⟩)

theorem DirMade.onlyDirs {t t' : Volume β} {l : Loc} {p : Perm} (h : DirMade t t' l p) :
    OnlyDirs t t' := by
  refine ⟨fun {m n} hm ↦ ?_, fun {m n} hm hm' ↦ ?_⟩
  · have hml : m ≠ l := by
      rintro rfl
      simp [h.fresh] at hm
    rw [h.frame m hml, hm]
  · by_cases hml : m = l
    · subst hml
      exact ⟨p, Option.some.inj (hm'.symm.trans h.made)⟩
    · rw [h.frame m hml, hm] at hm'
      cases hm'

theorem mkdir_onlyDirs (cwd : Loc) (path : Str) (mode : ℕ) (t : Volume β) :
    OnlyDirs t (mkdir cwd path mode t).2 := by
  rcases mkdir_cases cwd path mode t with he | ⟨l, -, -, h⟩
  · rw [he]
    exact .refl t
  · exact h.onlyDirs

theorem mkdir_once {cwd : Loc} {path : Str} {mode : ℕ} {t : Volume β}
    (h : (mkdir cwd path mode t).1 = true) :
    (mkdir cwd path mode (mkdir cwd path mode t).2).1 = false := by
  rcases mkdir_cases cwd path mode t with he | ⟨l, hl, -, hmade⟩
  · rw [he] at h
    cases h
  · rcases mkdir_cases cwd path mode (mkdir cwd path mode t).2 with he | ⟨l', hl', -, hmade'⟩
    · rw [he]
    · have hsame : l' = l :=
        (Volume.walk_foldl (Volume.slot_walk hl')).trans (Volume.walk_foldl (Volume.slot_walk hl)).symm
      have hfresh := hmade'.fresh
      rw [hsame, hmade.made] at hfresh
      cases hfresh

structure Moved (t t' : Volume β) (s d : Loc) : Prop where
  isFile : t.isFile s = true
  arrives : t'.node d = t.node s
  leaves : s ≠ d → t'.node s = none
  not_dir : t.isDir d = false
  frame : ∀ m, m ≠ s → m ≠ d → t'.node m = t.node m

theorem moveFile_cases (t : Volume β) (s d : Loc) :
    moveFile t s d = (false, t) ∨
      (moveFile t s d).1 = true ∧ Moved t (moveFile t s d).2 s d := by
  unfold moveFile
  split
  · rename_i h
    refine .inr ⟨rfl, h.1, ?_, fun _ ↦ by simp, h.2.2.2.1, fun m hs hd ↦ ?_⟩
    · rw [Volume.set_of_ne _ _ _ (Ne.symm h.2.1), Volume.set_self]
    · rw [Volume.set_of_ne _ _ _ hs, Volume.set_of_ne _ _ _ hd]
  · by_cases hsd : s = d
    · subst hsd
      cases hf : t.isFile s with
      | false => simp
      | true =>
        refine .inr ⟨by simp, hf, rfl, fun h ↦ absurd rfl h, ?_, fun m _ _ ↦ rfl⟩
        unfold Volume.isFile at hf
        unfold Volume.isDir
        split at hf
        · rename_i hn
          simp [hn]
        · cases hf
    · simp [hsd]

theorem moveFile_moved {t : Volume β} {s d : Loc} (hs : t.isFile s = true) (hd : d ≠ [])
    (hdir : t.isDir d = false) (hsrc : t.modifiable s.tail = true)
    (hdst : t.modifiable d.tail = true) :
    (moveFile t s d).1 = true ∧ Moved t (moveFile t s d).2 s d := by
  have hok : (moveFile t s d).1 = true := by
    by_cases hsd : s = d
    · simp [moveFile, hsd, hsd ▸ hs]
    · simp [moveFile, hs, hsd, hd, hdir, hsrc, hdst]
  refine ⟨hok, ?_⟩
  rcases moveFile_cases t s d with he | ⟨-, h⟩
  · rw [he] at hok
    cases hok
  · exact h

theorem rename_cases (cwd : Loc) (src dst : Str) (t : Volume β) :
    rename cwd src dst t = (false, t) ∨
      ∃ s d, t.entry cwd src = some s ∧ t.entry cwd dst = some d ∧
        (rename cwd src dst t).1 = true ∧ Moved t (rename cwd src dst t).2 s d := by
  unfold rename
  cases hs : t.entry cwd src with
  | none => exact .inl rfl
  | some s =>
    cases hd : t.entry cwd dst with
    | none => exact .inl rfl
    | some d => exact (moveFile_cases t s d).imp_right (fun h ↦ ⟨s, d, rfl, rfl, h⟩)

theorem Moved.keepsDirs {t t' : Volume β} {s d : Loc} (h : Moved t t' s d) : KeepsDirs t t' := by
  intro l p hl
  have hs : l ≠ s := by
    rintro rfl
    have hf := h.isFile
    simp [Volume.isFile, hl] at hf
  have hd : l ≠ d := by
    rintro rfl
    have hf := h.not_dir
    simp [Volume.isDir, hl] at hf
  rw [h.frame l hs hd, hl]

theorem Moved.fileAt_dst {t t' : Volume β} {s d : Loc} (h : Moved t t' s d) :
    t'.fileAt d = t.fileAt s := by
  simp only [Volume.fileAt, h.arrives]

theorem Moved.fileAt_of_ne {t t' : Volume β} {s d m : Loc} (h : Moved t t' s d) (hs : m ≠ s)
    (hd : m ≠ d) : t'.fileAt m = t.fileAt m := by
  simp only [Volume.fileAt, h.frame m hs hd]

inductive SysCall
  | access : Str → Perm → SysCall
  | mkdir : Str → ℕ → SysCall
  | rename : Str → Str → SysCall

def answer (cwd : Loc) : SysCall → Volume β → Bool × Volume β
  | .access path want, t => (access cwd path want t, t)
  | .mkdir path mode, t => mkdir cwd path mode t
  | .rename src dst, t => rename cwd src dst t

def SysCall.IsRename : SysCall → Prop
  | .rename _ _ => True
  | _ => False

theorem answer_onlyDirs (cwd : Loc) {c : SysCall} (hc : ¬ c.IsRename) (t : Volume β) :
    OnlyDirs t (answer cwd c t).2 := by
  cases c with
  | access path want => exact .refl t
  | mkdir path mode => exact mkdir_onlyDirs cwd path mode t
  | rename src dst => exact absurd trivial hc

theorem exec_onlyDirs {α : Type} (cwd : Loc) (p : Prog SysCall α)
    (hp : p.Only (fun c ↦ ¬ c.IsRename)) (s : List Bool × Volume β) :
    OnlyDirs s.2 (p.exec (faulty (answer cwd)) s).2.2 := by
  refine Prog.exec_related (R := fun s s' ↦ OnlyDirs s.2 s'.2) (fun s ↦ .refl s.2)
    (fun {s t u} (h : OnlyDirs s.2 t.2) (h' : OnlyDirs t.2 u.2) ↦ h.trans h')
    (fun c hc s ↦ ?_) p hp s
  rcases faulty_cases (answer cwd) c s with ⟨-, he⟩ | ⟨-, he⟩
  · rw [he]
    exact .refl s.2
  · rw [he]
    exact answer_onlyDirs cwd hc s.2

theorem faulty_access_cases (cwd : Loc) (path : Str) (want : Perm) (s : List Bool × Volume β) :
    (faulty (answer cwd) (.access path want) s).2.2 = s.2 ∧
      ((faulty (answer cwd) (.access path want) s).1 = false ∨
        (faulty (answer cwd) (.access path want) s).1 = true ∧ ∃ l, s.2.find cwd path = some l) := by
  rcases faulty_cases (answer cwd) (.access path want) s with ⟨hr, he⟩ | ⟨hr, he⟩
  · exact ⟨he, .inl hr⟩
  · refine ⟨he, ?_⟩
    rw [hr]
    cases ha : access cwd path want s.2 with
    | false => exact .inl ha
    | true => exact .inr ⟨ha, find_of_access ha⟩

theorem faulty_rename_cases (cwd : Loc) (src dst : Str) (s : List Bool × Volume β) :
    (faulty (answer cwd) (.rename src dst) s).1 = false ∧
        (faulty (answer cwd) (.rename src dst) s).2.2 = s.2 ∨
      (faulty (answer cwd) (.rename src dst) s).1 = true ∧
        ∃ l d, s.2.entry cwd src = some l ∧ s.2.entry cwd dst = some d ∧
          Moved s.2 (faulty (answer cwd) (.rename src dst) s).2.2 l d := by
  rcases faulty_cases (answer cwd) (.rename src dst) s with hrefused | ⟨hr, he⟩
  · exact .inl hrefused
  · rw [hr, he]
    rcases rename_cases cwd src dst s.2 with hfail | ⟨l, d, hl, hd, hok, hmoved⟩
    · exact .inl ⟨congrArg Prod.fst hfail, congrArg Prod.snd hfail⟩
    · exact .inr ⟨hok, l, d, hl, hd, hmoved⟩

theorem storeFile_node {t : Volume β} {l : Loc} (p : Perm) (b : β) (h : t.isDir l = false)
    (hp : t.isDir l.tail = true) (m : Loc) :
    (storeFile t l p b).node m = if m = l then some (.file p b) else t.node m := by
  have hl : l ≠ [] := by
    rintro rfl
    rw [List.tail_nil, h] at hp
    cases hp
  simp [storeFile, hl, h, hp, Volume.set]

theorem storeFile_of_ne (t : Volume β) {l m : Loc} (p : Perm) (b : β) (hm : m ≠ l) :
    (storeFile t l p b).node m = t.node m := by
  unfold storeFile
  split
  · exact Volume.set_of_ne _ _ _ hm
  · rfl

theorem storeFile_keepsDirs (t : Volume β) (l : Loc) (p : Perm) (b : β) :
    KeepsDirs t (storeFile t l p b) := by
  intro m q hm
  by_cases hml : m = l
  · subst hml
    simp [storeFile, Volume.isDir, hm]
  · rw [storeFile_of_ne t p b hml, hm]

theorem storeFile_fileAt {t : Volume β} {cwd l : Loc} {path : Str} (he : t.entry cwd path = some l)
    (p : Perm) (b : β) {x : β} (hx : (storeFile t l p b).fileAt l = some x) : x = b := by
  obtain ⟨_, c, m, -, -, -, hs, rfl⟩ := Volume.slot_split he
  have hm : t.isDir m = true := Volume.isDir_of_searchable hs
  cases hd : t.isDir (c :: m) with
  | false =>
    rw [Volume.fileAt, storeFile_node p b hd hm, if_pos rfl] at hx
    exact (Option.some.inj hx).symm
  | true =>
    obtain ⟨q, hq⟩ := Volume.dir_of_isDir hd
    simp [Volume.fileAt, storeFile_keepsDirs t _ p b hq] at hx

theorem openTrunc_cases (cwd : Loc) (path : Str) (mode : ℕ) (empty : β) (t : Volume β) :
    openTrunc cwd path mode empty t = (none, t) ∨
      ∃ l p, t.entry cwd path = some l ∧ (openTrunc cwd path mode empty t).1 = some l ∧
        (openTrunc cwd path mode empty t).2.node l = some (.file p empty) ∧
        KeepsDirs t (openTrunc cwd path mode empty t).2 := by
  unfold openTrunc
  cases he : t.entry cwd path with
  | none => exact .inl rfl
  | some l =>
    have hparent : t.isDir l.tail = true := by
      obtain ⟨_, c, m, -, -, -, hs, rfl⟩ := Volume.slot_split he
      exact Volume.isDir_of_searchable hs
    have hopened (p : Perm) (hdir : t.isDir l = false) :
        (storeFile t l p empty).node l = some (.file p empty) := by
      rw [storeFile_node p empty hdir hparent, if_pos rfl]
    have hdir (h : ∀ p, t.node l ≠ some (.dir p)) : t.isDir l = false := by
      unfold Volume.isDir
      split
      · rename_i hn
        exact absurd hn (h _)
      · rfl
    cases hn : t.node l with
    | none =>
      simp only [hn]
      split
      · exact .inr ⟨l, _, rfl, rfl, hopened _ (hdir (by simp [hn])), storeFile_keepsDirs t l _ _⟩
      · exact .inl rfl
    | some n =>
      cases n with
      | dir p => exact .inl (by simp only [hn])
      | file p b =>
        simp only [hn]
        split
        · exact .inr ⟨l, p, rfl, rfl, hopened p (hdir (by simp [hn])), storeFile_keepsDirs t l p empty⟩
        · exact .inl rfl

theorem content_of_openRead {cwd : Loc} {path : Str} {t : Volume β} {b : β}
    (h : openRead cwd path t = some b) : t.content cwd path = some b := by
  unfold openRead at h
  split at h
  · rename_i p b' hn
    split at h
    · obtain ⟨l, hl, hb⟩ := Option.bind_eq_some_iff.mp hn
      obtain rfl := Option.some.inj h
      rw [Volume.content, hl, Option.bind_some, Volume.fileAt, hb]
    · cases h
  · cases h

theorem remove_cases (cwd : Loc) (path : Str) (t : Volume β) :
    remove cwd path t = (false, t) ∨
      ∃ l, t.entry cwd path = some l ∧ (remove cwd path t).1 = true ∧
        (remove cwd path t).2.node l = none := by
  unfold remove
  cases he : t.entry cwd path with
  | none => exact .inl rfl
  | some l =>
    simp only [removeFile]
    split
    · exact .inr ⟨l, rfl, rfl, by simp⟩
    · exact .inl rfl

theorem updateFile_node {t : Volume β} {l : Loc} {p : Perm} {b : β} (h : t.node l = some (.file p b))
    (f : β → β) (m : Loc) :
    (updateFile t l f).node m = if m = l then some (.file p (f b)) else t.node m := by
  have hdir : t.isDir l = false := by simp only [Volume.isDir, h]
  have hparent : t.isDir l.tail = true := by
    cases l with
    | nil =>
      obtain ⟨q, hq⟩ := t.root_dir
      simp [hq] at h
    | cons c l =>
      obtain ⟨q, hq⟩ := t.parent_dir c l (by simp [h])
      simp only [List.tail_cons, Volume.isDir, hq]
  simpa only [updateFile, h] using storeFile_node p (f b) hdir hparent m

def SameDirs (t t' : Volume β) : Prop := ∀ l, t'.isDir l = t.isDir l

theorem SameDirs.of_keeps {t t' : Volume β} (h : KeepsDirs t t')
    (hnew : ∀ l p, t'.node l = some (.dir p) → ∃ q, t.node l = some (.dir q)) : SameDirs t t' := by
  intro l
  cases hd : t.isDir l with
  | true => exact h.isDir hd
  | false =>
    cases hd' : t'.isDir l with
    | false => rfl
    | true =>
      obtain ⟨p, hp⟩ := Volume.dir_of_isDir hd'
      obtain ⟨q, hq⟩ := hnew l p hp
      simp [Volume.isDir, hq] at hd

theorem set_sameDirs (t : Volume β) {l : Loc} {x : Option (Node β)} (h : t.Settable l x)
    (hx : ∀ p, x ≠ some (.dir p)) : SameDirs t (t.set l x h) := by
  apply SameDirs.of_keeps
  · intro m p hm
    have hml : m ≠ l := by
      rintro rfl
      exact h.not_dir p hm
    rw [Volume.set_of_ne t x h hml, hm]
  · intro m p hm
    by_cases hml : m = l
    · subst hml
      rw [Volume.set_self] at hm
      exact absurd hm (hx p)
    · exact ⟨p, by rwa [Volume.set_of_ne t x h hml] at hm⟩

theorem storeFile_sameDirs (t : Volume β) (l : Loc) (p : Perm) (b : β) :
    SameDirs t (storeFile t l p b) := by
  unfold storeFile
  split
  · exact set_sameDirs t _ nofun
  · exact fun _ ↦ rfl

theorem openTrunc_sameDirs (cwd : Loc) (path : Str) (mode : ℕ) (empty : β) (t : Volume β) :
    SameDirs t (openTrunc cwd path mode empty t).2 := by
  unfold openTrunc
  split
  · exact fun _ ↦ rfl
  · split
    · split
      · exact storeFile_sameDirs t _ _ _
      · exact fun _ ↦ rfl
    · split
      · exact storeFile_sameDirs t _ _ _
      · exact fun _ ↦ rfl
    · exact fun _ ↦ rfl

theorem updateFile_sameDirs (t : Volume β) (l : Loc) (f : β → β) : SameDirs t (updateFile t l f) := by
  unfold updateFile
  split
  · exact storeFile_sameDirs t _ _ _
  · exact fun _ ↦ rfl

theorem remove_sameDirs (cwd : Loc) (path : Str) (t : Volume β) :
    SameDirs t (remove cwd path t).2 := by
  unfold remove
  split
  · unfold removeFile
    split
    · dsimp only
      exact set_sameDirs t _ nofun
    · exact fun _ ↦ rfl
  · exact fun _ ↦ rfl

theorem Moved.sameDirs {t t' : Volume β} {s d : Loc} (h : Moved t t' s d) : SameDirs t t' := by
  apply SameDirs.of_keeps h.keepsDirs
  intro l p hl
  have hfile : t.node s ≠ some (.dir p) := by
    intro hs
    have hf := h.isFile
    simp [Volume.isFile, hs] at hf
  have hd : l ≠ d := by
    rintro rfl
    exact hfile (h.arrives.symm.trans hl)
  have hs : l ≠ s := by
    rintro rfl
    rw [h.leaves hd] at hl
    cases hl
  exact ⟨p, (h.frame l hs hd).symm.trans hl⟩

theorem rename_sameDirs (cwd : Loc) (src dst : Str) (t : Volume β) :
    SameDirs t (rename cwd src dst t).2 := by
  rcases rename_cases cwd src dst t with he | ⟨s, d, -, -, -, hmoved⟩
  · rw [he]
    exact fun _ ↦ rfl
  · exact hmoved.sameDirs

theorem DirMade.isDir_cases {t t' : Volume β} {l : Loc} {p : Perm} (h : DirMade t t' l p) {m : Loc}
    (hm : t'.isDir m = true) : t.isDir m = true ∨ m = l := by
  by_cases hml : m = l
  · exact .inr hml
  · simp only [Volume.isDir, h.frame m hml] at hm
    exact .inl hm

theorem mkdir_isDir_cases {cwd : Loc} {path : Str} {mode : ℕ} {t : Volume β} {m : Loc}
    (h : (mkdir cwd path mode t).2.isDir m = true) :
    t.isDir m = true ∨ t.dirEntry cwd path = some m := by
  rcases mkdir_cases cwd path mode t with he | ⟨l, hl, -, hmade⟩
  · rw [he] at h
    exact .inl h
  · rcases hmade.isDir_cases h with hold | rfl
    · exact .inl hold
    · exact .inr hl

/-- The calls on files. A write through a descriptor reaches the file wherever
it is by then. -/
inductive FileCall (β : Type)
  | sys : SysCall → FileCall β
  | openTrunc : Str → ℕ → β → FileCall β
  | edit : Loc → (β → β) → FileCall β
  | remove : Str → FileCall β
  | openRead : Str → FileCall β

def fileAnswer (cwd : Loc) : FileCall β → Volume β → Bool × Volume β
  | .sys c, t => answer cwd c t
  | .openTrunc path mode empty, t =>
    ((openTrunc cwd path mode empty t).1.isSome, (openTrunc cwd path mode empty t).2)
  | .edit l f, t => (true, updateFile t l f)
  | .remove path, t => remove cwd path t
  | .openRead path, t => ((openRead cwd path t).isSome, t)

end Calcsig.Foundation.FileCalls
