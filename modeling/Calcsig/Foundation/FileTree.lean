import Calcsig.Foundation.Text
import Mathlib.Data.List.DropRight
import Mathlib.Data.Nat.Bitwise

namespace Calcsig.Foundation.FileTree

open Text

variable {β : Type}

structure Perm where
  read : Bool
  write : Bool
  exec : Bool
deriving DecidableEq

def Perm.ofMode (mode : ℕ) : Perm := ⟨mode.testBit 8, mode.testBit 7, mode.testBit 6⟩

def Perm.allows (p want : Perm) : Bool :=
  (!want.read || p.read) && (!want.write || p.write) && (!want.exec || p.exec)

inductive Node (β : Type)
  | dir : Perm → Node β
  | file : Perm → β → Node β
deriving DecidableEq

def Node.perm : Node β → Perm
  | .dir p | .file p _ => p

/-- A place in the tree: the names from the node itself up to the root. -/
abbrev Loc := List Str

/-- A tree of directories and regular files. Every entry hangs below a
directory, so neither a dangling entry nor one below a file can be built. -/
structure Volume (β : Type) where
  node : Loc → Option (Node β)
  root_dir : ∃ p, node [] = some (.dir p)
  parent_dir : ∀ c l, node (c :: l) ≠ none → ∃ p, node l = some (.dir p)

namespace Volume

def bare : Volume β where
  node l := if l = [] then some (.dir ⟨true, true, true⟩) else none
  root_dir := ⟨_, rfl⟩
  parent_dir c l h := by simp at h

def isFile (t : Volume β) (l : Loc) : Bool :=
  match t.node l with
  | some (.file _ _) => true
  | _ => false

def isDir (t : Volume β) (l : Loc) : Bool :=
  match t.node l with
  | some (.dir _) => true
  | _ => false

def fileAt (t : Volume β) (l : Loc) : Option β :=
  match t.node l with
  | some (.file _ b) => some b
  | _ => none

def searchable (t : Volume β) (l : Loc) : Bool :=
  match t.node l with
  | some (.dir p) => p.exec
  | _ => false

def modifiable (t : Volume β) (l : Loc) : Bool :=
  match t.node l with
  | some (.dir p) => p.write && p.exec
  | _ => false

theorem dir_of_below {t : Volume β} {l : Loc} {u : List Str} (hu : u ≠ [])
    (h : t.node (u ++ l) ≠ none) : ∃ p, t.node l = some (.dir p) := by
  induction u with
  | nil => exact absurd rfl hu
  | cons c u ih =>
    obtain ⟨p, hp⟩ := t.parent_dir c (u ++ l) h
    by_cases hnil : u = []
    · subst hnil
      exact ⟨p, hp⟩
    · exact ih hnil (by rw [hp]; simp)

theorem fileAt_of_isFile {t : Volume β} {l : Loc} (h : t.isFile l = true) :
    ∃ b, t.fileAt l = some b := by
  unfold isFile at h
  unfold fileAt
  split at h
  · exact ⟨_, rfl⟩
  · cases h

theorem dir_of_isDir {t : Volume β} {l : Loc} (h : t.isDir l = true) :
    ∃ p, t.node l = some (.dir p) := by
  unfold isDir at h
  split at h
  · exact ⟨_, by assumption⟩
  · cases h

theorem dir_of_searchable {t : Volume β} {l : Loc} (h : t.searchable l = true) :
    ∃ p, t.node l = some (.dir p) ∧ p.exec = true := by
  unfold searchable at h
  split at h
  · exact ⟨_, by assumption, h⟩
  · cases h

theorem dir_of_modifiable {t : Volume β} {l : Loc} (h : t.modifiable l = true) :
    ∃ p, t.node l = some (.dir p) ∧ p.write = true ∧ p.exec = true := by
  unfold modifiable at h
  split at h
  · exact ⟨_, by assumption, by simpa using h⟩
  · cases h

theorem isDir_of_searchable {t : Volume β} {l : Loc} (h : t.searchable l = true) :
    t.isDir l = true := by
  obtain ⟨p, hp, -⟩ := dir_of_searchable h
  simp only [isDir, hp]

structure Settable (t : Volume β) (l : Loc) (x : Option (Node β)) : Prop where
  below_root : l ≠ []
  not_dir : ∀ p, t.node l ≠ some (.dir p)
  parent : x ≠ none → ∃ p, t.node l.tail = some (.dir p)

def set (t : Volume β) (l : Loc) (x : Option (Node β)) (h : t.Settable l x) : Volume β where
  node m := if m = l then x else t.node m
  root_dir := by
    obtain ⟨p, hp⟩ := t.root_dir
    exact ⟨p, by simpa [Ne.symm h.below_root] using hp⟩
  parent_dir c m hm := by
    have hml : m ≠ l := by
      rintro rfl
      rw [if_neg (by simp)] at hm
      obtain ⟨p, hp⟩ := t.parent_dir c m hm
      exact h.not_dir p hp
    rw [if_neg hml]
    by_cases hc : c :: m = l
    · subst hc
      rw [if_pos rfl] at hm
      exact h.parent hm
    · rw [if_neg hc] at hm
      exact t.parent_dir c m hm

@[simp] theorem set_self (t : Volume β) (l : Loc) (x : Option (Node β)) (h : t.Settable l x) :
    (t.set l x h).node l = x := by simp [set]

theorem set_of_ne (t : Volume β) {l m : Loc} (x : Option (Node β)) (h : t.Settable l x)
    (hm : m ≠ l) : (t.set l x h).node m = t.node m := by simp [set, hm]

end Volume

def descend (l : Loc) (c : Str) : Loc :=
  if c = [] ∨ c = ['.'] then l else if c = ['.', '.'] then l.tail else c :: l

def ProperName (c : Str) : Prop := c ≠ [] ∧ c ≠ ['.'] ∧ c ≠ ['.', '.']

instance (c : Str) : Decidable (ProperName c) := inferInstanceAs (Decidable (_ ∧ _))

theorem descend_proper {c : Str} (h : ProperName c) (l : Loc) : descend l c = c :: l := by
  simp [descend, h.1, h.2.1, h.2.2]

theorem properName_of_mem {c : Char} {s : Str} (h : c ∈ s) (hc : c ≠ '.') : ProperName s := by
  refine ⟨?_, ?_, ?_⟩ <;> rintro rfl <;> simp [hc] at h

theorem foldl_descend {names : List Str} (h : ∀ c ∈ names, ProperName c) (l : Loc) :
    names.foldl descend l = names.reverse ++ l := by
  induction names generalizing l with
  | nil => rfl
  | cons c names ih =>
    rw [List.foldl_cons, descend_proper (h c (by simp)), ih (fun d hd ↦ h d (by simp [hd]))]
    simp

theorem descend_length (l : Loc) (c : Str) : (descend l c).length ≤ l.length + 1 := by
  unfold descend
  split
  · omega
  · split
    · simp only [List.length_tail]
      omega
    · simp

def components (path : Str) : List Str := (cString path).splitOn '/'

def origin (cwd : Loc) (path : Str) : Loc := if path.head? = some '/' then [] else cwd

theorem components_append {s : Str} (h : nul ∉ s) (r : Str) :
    components (s ++ '/' :: r) = components s ++ components r := by
  have hslash : cString ('/' :: r) = '/' :: cString r := by
    simp [cString, show '/' ≠ nul from by decide]
  rw [components, cString_append h, hslash, List.splitOn_append_cons_self, components, components,
    cString_of_nul_free h]

theorem components_ne_nil (path : Str) : components path ≠ [] := List.splitOn_ne_nil '/' _

theorem components_name {c : Str} (hslash : '/' ∉ c) (hnul : nul ∉ c) : components c = [c] := by
  rw [components, cString_of_nul_free hnul, List.splitOn_eq_singleton hslash]

theorem components_initial (s r : Str) : components s <+: components (s ++ '/' :: r) := by
  by_cases h : nul ∈ s
  · simp only [components, cString_append_of_mem h, List.prefix_rfl]
  · rw [components_append h]
    exact List.prefix_append ..

theorem origin_append (cwd : Loc) {s : Str} (h : s ≠ []) (r : Str) :
    origin cwd (s ++ r) = origin cwd s := by
  simp only [origin, List.head?_append_of_ne_nil _ h]

/-- The place a path names by its text alone. -/
def lexical (cwd : Loc) (path : Str) : Loc := (components path).foldl descend (origin cwd path)

namespace Volume

def walk (t : Volume β) : Loc → List Str → Option Loc
  | l, [] => some l
  | l, c :: cs => if t.searchable l then t.walk (descend l c) cs else none

theorem walk_append (t : Volume β) (l : Loc) (cs cs' : List Str) :
    t.walk l (cs ++ cs') = (t.walk l cs).bind (t.walk · cs') := by
  induction cs generalizing l with
  | nil => rfl
  | cons c cs ih =>
    simp only [List.cons_append, walk]
    split
    · exact ih _
    · rfl

theorem walk_foldl {t : Volume β} {l l' : Loc} {cs : List Str} (h : t.walk l cs = some l') :
    l' = cs.foldl descend l := by
  induction cs generalizing l with
  | nil => exact (Option.some.inj h).symm
  | cons c cs ih =>
    simp only [walk] at h
    split at h
    · exact ih h
    · cases h

theorem searchable_of_walk {t : Volume β} {l l' : Loc} {cs : List Str} {c : Str} {cs' : List Str}
    (h : t.walk l (cs ++ c :: cs') = some l') : t.searchable (cs.foldl descend l) = true := by
  rw [walk_append] at h
  obtain ⟨m, hm, hrest⟩ := Option.bind_eq_some_iff.mp h
  rw [← walk_foldl hm]
  simp only [walk] at hrest
  split at hrest
  · assumption
  · cases hrest

def find (t : Volume β) (cwd : Loc) (path : Str) : Option Loc :=
  if cString path = [] then none else t.walk (origin cwd path) (components path)

/-- The directory entry that a list of components ends in, existing or not. -/
def slot (t : Volume β) (l : Loc) (cs : List Str) : Option Loc :=
  match cs.getLast? with
  | none => none
  | some c => if ProperName c then t.walk l cs else none

def entry (t : Volume β) (cwd : Loc) (path : Str) : Option Loc :=
  t.slot (origin cwd path) (components path)

/-- A new directory may be written with slashes behind its name. -/
def dirEntry (t : Volume β) (cwd : Loc) (path : Str) : Option Loc :=
  t.slot (origin cwd path) ((components path).rdropWhile (· = []))

theorem walk_of_find {t : Volume β} {cwd l : Loc} {path : Str} (h : t.find cwd path = some l) :
    t.walk (origin cwd path) (components path) = some l := by
  unfold find at h
  split at h
  · cases h
  · exact h

theorem find_lexical {t : Volume β} {cwd l : Loc} {path : Str} (h : t.find cwd path = some l) :
    l = lexical cwd path := walk_foldl (walk_of_find h)

theorem slot_walk {t : Volume β} {l l' : Loc} {cs : List Str} (h : t.slot l cs = some l') :
    t.walk l cs = some l' := by
  unfold slot at h
  split at h
  · cases h
  · split at h
    · exact h
    · cases h

theorem entry_lexical {t : Volume β} {cwd l : Loc} {path : Str} (h : t.entry cwd path = some l) :
    l = lexical cwd path := walk_foldl (slot_walk h)

def content (t : Volume β) (cwd : Loc) (path : Str) : Option β := (t.find cwd path).bind t.fileAt

theorem content_cString (t : Volume β) (cwd : Loc) {s : Str} (hs : s ≠ []) (r : Str) :
    t.content cwd (s ++ cString r) = t.content cwd (s ++ r) := by
  have horigin : origin cwd (s ++ cString r) = origin cwd (s ++ r) := by
    simp only [origin, List.head?_append_of_ne_nil _ hs]
  simp only [content, find, components, cString_append_cString, horigin]

theorem entry_find {t : Volume β} {cwd l : Loc} {path : Str} (h : t.entry cwd path = some l) :
    t.find cwd path = some l := by
  have hne : cString path ≠ [] := by
    intro hp
    simp [entry, components, hp, slot, ProperName] at h
  rw [find, if_neg hne]
  exact slot_walk h

theorem find_entry {t t' : Volume β} {cwd l l' : Loc} {path : Str} (h : t'.entry cwd path = some l')
    (hf : t.find cwd path = some l) : t.entry cwd path = some l := by
  unfold find at hf
  split at hf
  · cases hf
  · unfold entry slot at h ⊢
    split at h
    · cases h
    · split at h
      · rename_i hp
        simpa only [hp, if_true] using hf
      · cases h

theorem fileAt_of_content {t : Volume β} {cwd : Loc} {path : Str} {b : β}
    (h : t.content cwd path = some b) : t.fileAt (lexical cwd path) = some b := by
  obtain ⟨l, hl, hb⟩ := Option.bind_eq_some_iff.mp h
  rw [← find_lexical hl, hb]

theorem content_entry {t : Volume β} {cwd l : Loc} {path : Str} (h : t.entry cwd path = some l) :
    t.content cwd path = t.fileAt l := by
  rw [content, entry_find h]
  rfl

theorem slot_split {t : Volume β} {l l' : Loc} {cs : List Str} (h : t.slot l cs = some l') :
    ∃ cs' c m, cs = cs' ++ [c] ∧ ProperName c ∧ t.walk l cs' = some m ∧
      t.searchable m = true ∧ l' = c :: m := by
  unfold slot at h
  split at h
  · cases h
  · rename_i c hc
    split at h
    · rename_i hp
      obtain ⟨cs', rfl⟩ : ∃ cs', cs = cs' ++ [c] := ⟨cs.dropLast, by
        rw [List.getLast?_eq_some_iff] at hc
        obtain ⟨ys, rfl⟩ := hc
        simp⟩
      rw [walk_append] at h
      cases hm : t.walk l cs' with
      | none => simp [hm] at h
      | some m =>
        simp only [hm, Option.bind_some, walk] at h
        split at h
        · rename_i hs
          exact ⟨cs', c, m, rfl, hp, hm, hs, by
            rw [← descend_proper hp]; exact (Option.some.inj h).symm⟩
        · cases h
    · cases h

theorem slot_append_proper (t : Volume β) (l : Loc) (cs : List Str) {c : Str} (h : ProperName c) :
    t.slot l (cs ++ [c]) =
      (t.walk l cs).bind (fun m ↦ if t.searchable m then some (c :: m) else none) := by
  simp only [slot, List.getLast?_append, List.getLast?_singleton, Option.some_or, h, if_true,
    walk_append, walk, descend_proper h]

/-- The path leads through directories to a directory. -/
def DirPath (t : Volume β) (cwd : Loc) (path : Str) : Prop :=
  ∀ cs, cs <+: components path → t.isDir (cs.foldl descend (origin cwd path)) = true

theorem DirPath.head {t : Volume β} {cwd : Loc} {s r : Str} (h : t.DirPath cwd (s ++ '/' :: r))
    (hs : s ≠ []) : t.DirPath cwd s := by
  intro cs hcs
  rw [← origin_append cwd hs]
  exact h cs (hcs.trans (components_initial s r))

theorem DirPath.isDir_dirEntry {t : Volume β} {cwd l : Loc} {path : Str} (h : t.DirPath cwd path)
    (hl : t.dirEntry cwd path = some l) : t.isDir l = true := by
  rw [walk_foldl (slot_walk hl)]
  exact h _ (List.rdropWhile_prefix _ _)

end Volume

end Calcsig.Foundation.FileTree
