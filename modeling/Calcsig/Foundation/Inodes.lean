import Calcsig.Foundation.FileCalls
import Mathlib.Logic.Function.Basic

namespace Calcsig.Foundation.Inodes

open Function Text FileTree FileCalls

variable {α β γ : Type}

def mapNode (f : β → γ) : Node β → Node γ
  | .dir p => .dir p
  | .file p b => .file p (f b)

section MapNode

variable {f : β → γ}

@[simp] theorem mapNode_dir (p : Perm) : mapNode f (.dir p) = .dir p := rfl

@[simp] theorem mapNode_file (p : Perm) (b : β) : mapNode f (.file p b) = .file p (f b) := rfl

@[simp] theorem map_mapNode_dir {n : Option (Node β)} {p : Perm} :
    n.map (mapNode f) = some (.dir p) ↔ n = some (.dir p) := by
  rcases n with _ | ⟨q⟩ | ⟨q, b⟩ <;> simp

end MapNode

def mapVolume (f : β → γ) (t : Volume β) : Volume γ where
  node l := (t.node l).map (mapNode f)
  root_dir := t.root_dir.imp fun _ hp ↦ map_mapNode_dir.mpr hp
  parent_dir c l h := (t.parent_dir c l (by simpa using h)).imp fun _ hp ↦ map_mapNode_dir.mpr hp

theorem volume_ext {t t' : Volume β} (h : ∀ l, t.node l = t'.node l) : t = t' := by
  cases t
  cases t'
  congr
  exact funext h

theorem isFile_iff {t : Volume β} {l : Loc} :
    t.isFile l = true ↔ ∃ p b, t.node l = some (.file p b) := by
  unfold Volume.isFile
  rcases t.node l with _ | ⟨p⟩ | ⟨p, b⟩ <;> simp

section MapVolume

variable (f : β → γ) (t : Volume β) (l : Loc)

@[simp] theorem mapVolume_node : (mapVolume f t).node l = (t.node l).map (mapNode f) := rfl

@[simp] theorem mapVolume_isDir : (mapVolume f t).isDir l = t.isDir l := by
  unfold Volume.isDir
  rcases h : t.node l with _ | ⟨p⟩ | ⟨p, b⟩ <;> simp [h]

@[simp] theorem mapVolume_isFile : (mapVolume f t).isFile l = t.isFile l := by
  unfold Volume.isFile
  rcases h : t.node l with _ | ⟨p⟩ | ⟨p, b⟩ <;> simp [h]

@[simp] theorem mapVolume_fileAt : (mapVolume f t).fileAt l = (t.fileAt l).map f := by
  unfold Volume.fileAt
  rcases h : t.node l with _ | ⟨p⟩ | ⟨p, b⟩ <;> simp [h]

@[simp] theorem mapVolume_searchable : (mapVolume f t).searchable l = t.searchable l := by
  unfold Volume.searchable
  rcases h : t.node l with _ | ⟨p⟩ | ⟨p, b⟩ <;> simp [h]

@[simp] theorem mapVolume_modifiable : (mapVolume f t).modifiable l = t.modifiable l := by
  unfold Volume.modifiable
  rcases h : t.node l with _ | ⟨p⟩ | ⟨p, b⟩ <;> simp [h]

@[simp] theorem mapVolume_walk (cs : List Str) : (mapVolume f t).walk l cs = t.walk l cs := by
  induction cs generalizing l with
  | nil => rfl
  | cons c cs ih => simp only [Volume.walk, mapVolume_searchable, ih]

@[simp] theorem mapVolume_slot (cs : List Str) : (mapVolume f t).slot l cs = t.slot l cs := by
  simp only [Volume.slot, mapVolume_walk]

variable (cwd : Loc) (path : Str)

@[simp] theorem mapVolume_find : (mapVolume f t).find cwd path = t.find cwd path := by
  simp only [Volume.find, mapVolume_walk]

@[simp] theorem mapVolume_entry : (mapVolume f t).entry cwd path = t.entry cwd path :=
  mapVolume_slot f t _ _

@[simp] theorem mapVolume_dirEntry : (mapVolume f t).dirEntry cwd path = t.dirEntry cwd path :=
  mapVolume_slot f t _ _

theorem mapVolume_content : (mapVolume f t).content cwd path = (t.content cwd path).map f := by
  simp only [Volume.content, mapVolume_find]
  cases t.find cwd path <;> simp

theorem mapNode_perm (n : Node β) : (mapNode f n).perm = n.perm := by
  cases n <;> rfl

end MapVolume

section MapCalls

variable (f : β → γ) (cwd : Loc) (t : Volume β)

theorem access_map (path : Str) (want : Perm) :
    access cwd path want (mapVolume f t) = access cwd path want t := by
  unfold access
  rw [mapVolume_find]
  cases t.find cwd path with
  | none => rfl
  | some l =>
    simp only [Option.bind_some, mapVolume_node]
    cases t.node l with
    | none => rfl
    | some n => simp only [Option.map_some, mapNode_perm]

theorem mkdir_map (path : Str) (mode : ℕ) :
    mkdir cwd path mode (mapVolume f t) =
      ((mkdir cwd path mode t).1, mapVolume f (mkdir cwd path mode t).2) := by
  unfold mkdir
  rw [mapVolume_dirEntry]
  cases t.dirEntry cwd path with
  | none => rfl
  | some l =>
    simp only [makeDir, mapVolume_node, Option.isNone_map, mapVolume_modifiable]
    split
    · refine congrArg (Prod.mk true) (volume_ext fun m ↦ ?_)
      by_cases hm : m = l
      · subst hm
        simp
      · simp [Volume.set_of_ne _ _ _ hm]
    · rfl

theorem moveFile_map (s d : Loc) :
    moveFile (mapVolume f t) s d = ((moveFile t s d).1, mapVolume f (moveFile t s d).2) := by
  simp only [moveFile, mapVolume_isFile, mapVolume_isDir, mapVolume_modifiable]
  split
  · refine congrArg (Prod.mk true) (volume_ext fun m ↦ ?_)
    by_cases hs : m = s
    · subst hs
      simp
    · by_cases hd : m = d
      · subst hd
        simp [Volume.set_of_ne _ _ _ hs]
      · simp [Volume.set_of_ne _ _ _ hs, Volume.set_of_ne _ _ _ hd]
  · rfl

theorem rename_map (src dst : Str) :
    rename cwd src dst (mapVolume f t) =
      ((rename cwd src dst t).1, mapVolume f (rename cwd src dst t).2) := by
  simp only [rename, mapVolume_entry]
  cases t.entry cwd src with
  | none => rfl
  | some s =>
    cases t.entry cwd dst with
    | none => rfl
    | some d => exact moveFile_map f t s d

theorem answer_map (c : SysCall) :
    answer cwd c (mapVolume f t) = ((answer cwd c t).1, mapVolume f (answer cwd c t).2) := by
  cases c with
  | access path want => exact congrArg (·, mapVolume f t) (access_map f cwd t path want)
  | mkdir path mode => exact mkdir_map f cwd t path mode
  | rename src dst => exact rename_map f cwd t src dst

theorem remove_map (path : Str) :
    remove cwd path (mapVolume f t) =
      ((remove cwd path t).1, mapVolume f (remove cwd path t).2) := by
  unfold remove
  rw [mapVolume_entry]
  cases t.entry cwd path with
  | none => rfl
  | some l =>
    simp only [removeFile, mapVolume_isFile, mapVolume_modifiable]
    split
    · refine congrArg (Prod.mk true) (volume_ext fun m ↦ ?_)
      by_cases hm : m = l
      · subst hm
        simp
      · simp [Volume.set_of_ne _ _ _ hm]
    · rfl

end MapCalls

/-- Every file entry has an inode in use, and no inode has two entries. -/
structure Linked (fresh : ℕ) (t : Volume ℕ) : Prop where
  known : ∀ {l p i}, t.node l = some (.file p i) → i < fresh
  single : ∀ {l l' p p' i}, t.node l = some (.file p i) → t.node l' = some (.file p' i) → l = l'

section Linking

variable {fresh : ℕ} {t t' : Volume ℕ}

theorem Linked.of_files (h : Linked fresh t)
    (hfiles : ∀ {l p i}, t'.node l = some (.file p i) → t.node l = some (.file p i)) :
    Linked fresh t' :=
  ⟨fun hl ↦ h.known (hfiles hl), fun hl hl' ↦ h.single (hfiles hl) (hfiles hl')⟩

theorem file_of_onlyDirs (h : OnlyDirs t t') {l : Loc} {p : Perm} {i : ℕ}
    (hl : t'.node l = some (.file p i)) : t.node l = some (.file p i) := by
  cases hn : t.node l with
  | none =>
    obtain ⟨q, hq⟩ := h.adds hn hl
    cases hq
  | some n => rw [← hl, h.keeps hn]

theorem file_of_moved {s d : Loc} (h : Moved t t' s d) {l : Loc} {p : Perm} {i : ℕ}
    (hl : t'.node l = some (.file p i)) :
    l = d ∧ t.node s = some (.file p i) ∨ l ≠ d ∧ l ≠ s ∧ t.node l = some (.file p i) := by
  by_cases hd : l = d
  · subst hd
    exact .inl ⟨rfl, h.arrives.symm.trans hl⟩
  · have hs : l ≠ s := by
      rintro rfl
      rw [h.leaves hd] at hl
      cases hl
    exact .inr ⟨hd, hs, (h.frame l hs hd).symm.trans hl⟩

theorem Linked.moved (h : Linked fresh t) {s d : Loc} (hm : Moved t t' s d) : Linked fresh t' := by
  refine ⟨fun hl ↦ ?_, fun hl hl' ↦ ?_⟩
  · rcases file_of_moved hm hl with ⟨-, hs⟩ | ⟨-, -, hs⟩
    · exact h.known hs
    · exact h.known hs
  · rcases file_of_moved hm hl with ⟨hd, hs⟩ | ⟨hd, hne, hs⟩ <;>
      rcases file_of_moved hm hl' with ⟨hd', hs'⟩ | ⟨hd', hne', hs'⟩
    · rw [hd, hd']
    · exact absurd (h.single hs' hs) hne'
    · exact absurd (h.single hs hs') hne
    · exact h.single hs hs'

theorem Linked.answer (h : Linked fresh t) (cwd : Loc) (c : SysCall) :
    Linked fresh (answer cwd c t).2 := by
  by_cases hc : c.IsRename
  · cases c with
    | access path want => exact hc.elim
    | mkdir path mode => exact hc.elim
    | rename src dst =>
      rcases rename_cases cwd src dst t with he | ⟨s, d, -, -, -, hm⟩
      · simpa only [FileCalls.answer, he] using h
      · exact h.moved hm
  · exact h.of_files (file_of_onlyDirs (answer_onlyDirs cwd hc t))

theorem remove_node (cwd : Loc) (path : Str) (t : Volume β) :
    (remove cwd path t).2 = t ∨ ∃ l, t.entry cwd path = some l ∧ t.isFile l = true ∧
      (remove cwd path t).2.node l = none ∧ ∀ m, m ≠ l → (remove cwd path t).2.node m = t.node m := by
  unfold remove
  cases he : t.entry cwd path with
  | none => exact .inl rfl
  | some l =>
    simp only [removeFile]
    split
    · rename_i h
      exact .inr ⟨l, rfl, h.1, by simp, fun m hm ↦ by rw [Volume.set_of_ne _ _ _ hm]⟩
    · exact .inl rfl

theorem file_of_remove {cwd : Loc} {path : Str} {l : Loc} {p : Perm} {i : ℕ}
    (hl : (remove cwd path t).2.node l = some (.file p i)) : t.node l = some (.file p i) := by
  rcases remove_node cwd path t with he | ⟨m, -, -, hgone, hframe⟩
  · rwa [he] at hl
  · by_cases hlm : l = m
    · rw [hlm, hgone] at hl
      cases hl
    · rwa [hframe l hlm] at hl

theorem Linked.store (h : Linked fresh t) (l : Loc) (p : Perm) :
    Linked (fresh + 1) (storeFile t l p fresh) := by
  have hfile {m : Loc} {q : Perm} {i : ℕ} (hm : (storeFile t l p fresh).node m = some (.file q i)) :
      m = l ∧ i = fresh ∨ t.node m = some (.file q i) := by
    unfold storeFile at hm
    split at hm
    · by_cases hml : m = l
      · subst hml
        rw [Volume.set_self] at hm
        cases hm
        exact .inl ⟨rfl, rfl⟩
      · exact .inr (by rwa [Volume.set_of_ne _ _ _ hml] at hm)
    · exact .inr hm
  refine ⟨fun hm ↦ ?_, fun hm hm' ↦ ?_⟩
  · rcases hfile hm with ⟨-, rfl⟩ | hold
    · exact Nat.lt_succ_self _
    · exact Nat.lt_succ_of_lt (h.known hold)
  · rcases hfile hm with ⟨hl, hi⟩ | hold <;> rcases hfile hm' with ⟨hl', hi'⟩ | hold'
    · rw [hl, hl']
    · exact absurd (h.known hold') (by omega)
    · exact absurd (h.known hold) (by omega)
    · exact h.single hold hold'

end Linking

/-- Files as a system keeps them: a tree of names that lead to inodes, and what
each inode holds. -/
structure Disk (α : Type) where
  names : Volume ℕ
  data : ℕ → List α
  fresh : ℕ
  linked : Linked fresh names

/-- An open file: its inode, and how far it has been read or written. -/
structure Fd where
  ino : ℕ
  pos : ℕ
deriving DecidableEq

/-- Writing at a place of a file, with zeros up to it where the file is shorter. -/
def splice (zero : α) (pos : ℕ) (b old : List α) : List α :=
  if b.isEmpty then old
  else old.take pos ++ List.replicate (pos - old.length) zero ++ b ++ old.drop (pos + b.length)

theorem splice_end (zero : α) (b old : List α) : splice zero old.length b old = old ++ b := by
  unfold splice
  cases b with
  | nil => simp
  | cons c b => simp

namespace Disk

def bare : Disk α where
  names := Volume.bare
  data _ := []
  fresh := 0
  linked := by
    have hnone {l : Loc} {p : Perm} {i : ℕ} : Volume.bare.node l ≠ some (.file p i) := by
      by_cases hl : l = [] <;> simp [Volume.bare, hl]
    exact ⟨fun h ↦ absurd h hnone, fun h ↦ absurd h hnone⟩

def sys (cwd : Loc) (c : SysCall) (d : Disk α) : Bool × Disk α :=
  ((answer cwd c d.names).1,
    { d with names := (answer cwd c d.names).2, linked := d.linked.answer cwd c })

def remove (cwd : Loc) (path : Str) (d : Disk α) : Bool × Disk α :=
  ((FileCalls.remove cwd path d.names).1,
    { d with
      names := (FileCalls.remove cwd path d.names).2
      linked := d.linked.of_files file_of_remove })

def create (l : Loc) (p : Perm) (d : Disk α) : Disk α where
  names := storeFile d.names l p d.fresh
  data := update d.data d.fresh []
  fresh := d.fresh + 1
  linked := d.linked.store l p

/-- `open` with the flags for writing, creating and truncating. -/
def openTrunc (cwd : Loc) (path : Str) (mode : ℕ) (d : Disk α) : Option Fd × Disk α :=
  match d.names.entry cwd path with
  | none => (none, d)
  | some l =>
    match d.names.node l with
    | none =>
      if d.names.modifiable l.tail then (some ⟨d.fresh, 0⟩, d.create l (Perm.ofMode mode))
      else (none, d)
    | some (.file p i) =>
      if p.write then (some ⟨i, 0⟩, { d with data := update d.data i [] }) else (none, d)
    | some (.dir _) => (none, d)

def openRead (cwd : Loc) (path : Str) (d : Disk α) : Option Fd :=
  match (d.names.find cwd path).bind d.names.node with
  | some (.file p i) => if p.read then some ⟨i, 0⟩ else none
  | _ => none

def write (zero : α) (fd : Fd) (b : List α) (d : Disk α) : Fd × Disk α :=
  (⟨fd.ino, fd.pos + b.length⟩,
    { d with data := update d.data fd.ino (splice zero fd.pos b (d.data fd.ino)) })

def read (fd : Fd) (n : ℕ) (d : Disk α) : List α := ((d.data fd.ino).drop fd.pos).take n

/-- The tree with the contents of the files in their places. -/
def view (d : Disk α) : Volume (List α) := mapVolume d.data d.names

section View

theorem view_bare : (bare : Disk α).view = Volume.bare := by
  apply volume_ext
  intro l
  by_cases hl : l = [] <;> simp [view, bare, Volume.bare, hl]

variable (cwd : Loc) (path : Str) (d : Disk α)

theorem view_sys (c : SysCall) :
    answer cwd c d.view = ((d.sys cwd c).1, (d.sys cwd c).2.view) := answer_map d.data cwd d.names c

theorem view_remove :
    FileCalls.remove cwd path d.view = ((d.remove cwd path).1, (d.remove cwd path).2.view) :=
  remove_map d.data cwd d.names path

theorem view_openRead :
    FileCalls.openRead cwd path d.view = (d.openRead cwd path).map (fun fd ↦ d.data fd.ino) := by
  unfold FileCalls.openRead openRead
  rw [view, mapVolume_find]
  cases d.names.find cwd path with
  | none => rfl
  | some l =>
    simp only [Option.bind_some, mapVolume_node]
    rcases d.names.node l with _ | ⟨p⟩ | ⟨p, i⟩
    · rfl
    · rfl
    · cases hp : p.read <;> simp [hp]

variable {cwd path d}

theorem openRead_file {fd : Fd} (h : d.openRead cwd path = some fd) :
    fd.pos = 0 ∧ d.names.find cwd path = some (lexical cwd path) ∧
      ∃ p, d.names.node (lexical cwd path) = some (.file p fd.ino) := by
  unfold openRead at h
  split at h
  · rename_i p i hn
    split at h
    · obtain ⟨l, hl, hn⟩ := Option.bind_eq_some_iff.mp hn
      cases h
      exact ⟨rfl, Volume.find_lexical hl ▸ hl, p, Volume.find_lexical hl ▸ hn⟩
    · cases h
  · cases h

theorem view_content_iff : (∃ b, d.view.content cwd path = some b) ↔
    d.names.find cwd path = some (lexical cwd path) ∧
      d.names.isFile (lexical cwd path) = true := by
  rw [view, mapVolume_content, Volume.content]
  constructor
  · rintro ⟨b, hb⟩
    obtain ⟨i, hi, -⟩ := Option.map_eq_some_iff.mp hb
    obtain ⟨l, hl, hfile⟩ := Option.bind_eq_some_iff.mp hi
    obtain rfl := Volume.find_lexical hl
    refine ⟨hl, isFile_iff.mpr ?_⟩
    unfold Volume.fileAt at hfile
    split at hfile
    · exact ⟨_, _, by assumption⟩
    · cases hfile
  · rintro ⟨hl, hfile⟩
    obtain ⟨i, hi⟩ := Volume.fileAt_of_isFile hfile
    exact ⟨d.data i, by simp [hl, hi]⟩

theorem view_update {l : Loc} {p : Perm} {i : ℕ} (h : d.names.node l = some (.file p i))
    (b : List α) (m : Loc) :
    (mapVolume (update d.data i b) d.names).node m =
      if m = l then some (.file p b) else d.view.node m := by
  by_cases hm : m = l
  · subst hm
    simp [h]
  · rw [if_neg hm, mapVolume_node, view, mapVolume_node]
    rcases hn : d.names.node m with _ | ⟨q⟩ | ⟨q, j⟩
    · rfl
    · rfl
    · have hj : j ≠ i := by
        rintro rfl
        exact hm (d.linked.single hn h)
      simp [update_of_ne hj]

theorem view_write {l : Loc} {p : Perm} {fd : Fd} (zero : α)
    (h : d.names.node l = some (.file p fd.ino)) (hpos : fd.pos = (d.data fd.ino).length)
    (b : List α) : (d.write zero fd b).2.view = updateFile d.view l (· ++ b) := by
  have hview : d.view.node l = some (.file p (d.data fd.ino)) := by
    simp [view, h]
  apply volume_ext
  intro m
  rw [updateFile_node hview, write, view, hpos, splice_end]
  exact view_update h _ m

theorem isDir_parent {l : Loc} (h : d.names.entry cwd path = some l) :
    d.names.isDir l.tail = true := by
  obtain ⟨_, c, m, -, -, -, hs, rfl⟩ := Volume.slot_split h
  exact Volume.isDir_of_searchable hs

/-- The file that is opened for writing is empty then, and it is no other file of
the tree. -/
structure Opened (d d' : Disk α) (l : Loc) (p : Perm) (i : ℕ) : Prop where
  node : d'.names.node l = some (.file p i)
  empty : d'.data = update d.data i []
  frame : ∀ m, m ≠ l → d'.names.node m = d.names.node m
  apart : ∀ m q, m ≠ l → d.names.node m ≠ some (.file q i)
  before : ∀ q, d.names.node l ≠ some (.dir q)

theorem openTrunc_cases (cwd : Loc) (path : Str) (mode : ℕ) (d : Disk α) :
    d.openTrunc cwd path mode = (none, d) ∨
      ∃ p i, d.names.entry cwd path = some (lexical cwd path) ∧
        (d.openTrunc cwd path mode).1 = some ⟨i, 0⟩ ∧
        Opened d (d.openTrunc cwd path mode).2 (lexical cwd path) p i := by
  unfold openTrunc
  cases he : d.names.entry cwd path with
  | none => exact .inl rfl
  | some l =>
    have hparent := isDir_parent he
    obtain rfl := Volume.entry_lexical he
    rcases hn : d.names.node (lexical cwd path) with _ | ⟨p⟩ | ⟨p, i⟩
    · have hdir : d.names.isDir (lexical cwd path) = false := by simp only [Volume.isDir, hn]
      simp only [hn]
      split
      · refine .inr ⟨Perm.ofMode mode, d.fresh, trivial, rfl, ?_, rfl, fun m hm ↦ ?_,
          fun m q _ hm ↦ ?_, by simp [hn]⟩
        · simp only [create, storeFile_node _ _ hdir hparent, if_true]
        · exact storeFile_of_ne _ _ _ hm
        · exact absurd (d.linked.known hm) (lt_irrefl _)
      · exact .inl rfl
    · exact .inl (by simp only [hn])
    · simp only [hn]
      split
      · exact .inr ⟨p, i, trivial, rfl, hn, rfl, fun _ _ ↦ rfl,
          fun m q hm hq ↦ hm (d.linked.single hq hn), by simp [hn]⟩
      · exact .inl rfl

theorem view_openTrunc (cwd : Loc) (path : Str) (mode : ℕ) (d : Disk α) :
    FileCalls.openTrunc cwd path mode [] d.view =
      ((d.openTrunc cwd path mode).1.map (fun _ ↦ lexical cwd path),
        (d.openTrunc cwd path mode).2.view) := by
  have hold {l : Loc} {p : Perm} {i : ℕ} (h : d.names.node l = some (.file p i)) (m : Loc) :
      (storeFile d.view l p []).node m = (mapVolume (update d.data i []) d.names).node m := by
    have hview : d.view.node l = some (.file p (d.data i)) := by simp [view, h]
    have hstore := updateFile_node hview (fun _ ↦ []) m
    simp only [updateFile, hview] at hstore
    rw [hstore, view_update h]
  unfold FileCalls.openTrunc openTrunc
  rw [view, mapVolume_entry]
  cases he : d.names.entry cwd path with
  | none => rfl
  | some l =>
    have hparent := isDir_parent he
    obtain rfl := Volume.entry_lexical he
    rcases hn : d.names.node (lexical cwd path) with _ | ⟨p⟩ | ⟨p, i⟩
    · have hdir : d.names.isDir (lexical cwd path) = false := by simp only [Volume.isDir, hn]
      simp only [mapVolume_node, hn, Option.map_none, mapVolume_modifiable]
      split
      · refine congrArg (Prod.mk _) (volume_ext fun m ↦ ?_)
        rw [storeFile_node _ _ (by simpa using hdir) (by simpa using hparent)]
        simp only [create, view, mapVolume_node, storeFile_node _ _ hdir hparent]
        split
        · simp
        · rcases hm : d.names.node m with _ | ⟨q⟩ | ⟨q, j⟩
          · simp
          · simp
          · have hj : j ≠ d.fresh := (d.linked.known hm).ne
            simp [update_of_ne hj]
      · rfl
    · simp only [mapVolume_node, hn, Option.map_some, mapNode_dir, Option.map_none, view]
    · simp only [mapVolume_node, hn, Option.map_some, mapNode_file]
      split
      · exact congrArg (Prod.mk _) (volume_ext fun m ↦ hold hn m)
      · rfl

end View

end Disk

end Calcsig.Foundation.Inodes
