import Calcsig.Utils.MoveFile
import Mathlib.Data.Nat.Find

namespace Calcsig.Store.MovePaths

open Foundation.Text Foundation.FileTree Foundation.FileCalls Foundation.Programs
open Utils.MoveFile

variable {β : Type}

def below (base : Str) (names : List Str) : Str := base ++ names.flatMap (fun c ↦ '/' :: c)

/-- A move into the store: the source path, the directories between the base
path and the destination, and the destination's own name. -/
structure Move where
  src : Str
  parents : List Str
  name : Str

variable (cwd : Loc) (base : Str) (mv : Move)

namespace Move

def dst : Str := below base (mv.parents ++ [mv.name])

def path (j : ℕ) : Str := below base (mv.parents.take j)

def source : Loc := lexical cwd mv.src

def level (j : ℕ) : Loc := (mv.parents.take j).reverse ++ lexical cwd base

def target : Loc := mv.name :: mv.level cwd base mv.parents.length

def Named : Prop := ∀ c ∈ mv.parents ++ [mv.name], ProperName c ∧ '/' ∉ c ∧ nul ∉ c

instance : Decidable mv.Named := inferInstanceAs (Decidable (∀ c ∈ _, _))

/-- The source is a writable file in a writable directory, and on the way to
the destination there are accessible directories or nothing. -/
structure Ready (t : Volume β) : Prop where
  named : mv.Named
  found : t.entry cwd mv.src = some (mv.source cwd)
  file : ∃ p b, t.node (mv.source cwd) = some (.file p b) ∧ p.write = true
  source_dir : t.modifiable (mv.source cwd).tail = true
  parents : ∀ j ≤ mv.parents.length,
    t.node (mv.level cwd base j) = none ∨ t.modifiable (mv.level cwd base j) = true
  target : t.isDir (mv.target cwd base) = false

end Move

structure BaseReady (t : Volume β) : Prop where
  nul_free : nul ∉ base
  found : t.find cwd base = some (lexical cwd base)
  modifiable : t.modifiable (lexical cwd base) = true

theorem below_concat (names : List Str) (c : Str) :
    below base (names ++ [c]) = below base names ++ '/' :: c := by
  simp [below]

theorem nul_notMem_below {names : List Str} (hbase : nul ∉ base) (h : ∀ c ∈ names, nul ∉ c) :
    nul ∉ below base names := by
  have hslash : nul ≠ '/' := by decide
  simp only [below, List.mem_append, List.mem_flatMap, List.mem_cons, not_or, not_exists, not_and]
  exact ⟨hbase, fun c hc ↦ ⟨hslash, h c hc⟩⟩

theorem components_below {names : List Str} (hbase : nul ∉ base)
    (h : ∀ c ∈ names, '/' ∉ c ∧ nul ∉ c) :
    components (below base names) = components base ++ names := by
  induction names using List.reverseRecOn with
  | nil => simp [below]
  | append_singleton names c ih =>
    have hc := h c (by simp)
    have hnames : ∀ c ∈ names, '/' ∉ c ∧ nul ∉ c := fun d hd ↦ h d (by simp [hd])
    rw [below_concat, components_append (nul_notMem_below base hbase (fun d hd ↦ (hnames d hd).2)),
      ih hnames, components_name hc.1 hc.2, List.append_assoc]

theorem rfind_below (names : List Str) {c : Str} (hc : '/' ∉ c) :
    rfind '/' (below base (names ++ [c])) = some (below base names).length ∧
      (below base (names ++ [c])).take (below base names).length = below base names := by
  rw [below_concat]
  exact ⟨rfind_append _ hc, List.take_left⟩

section Resolution

variable {cwd base mv} {t s : Volume β}

theorem BaseReady.ne_nil (hb : BaseReady cwd base t) : base ≠ [] := by
  rintro rfl
  have hf := hb.found
  simp [Volume.find, cString] at hf

theorem below_ne_nil (hb : BaseReady cwd base t) (names : List Str) : below base names ≠ [] := by
  simp [below, hb.ne_nil]

theorem origin_below (hb : BaseReady cwd base t) (names : List Str) :
    origin cwd (below base names) = origin cwd base := by
  simp only [origin, below, List.head?_append_of_ne_nil _ hb.ne_nil]

theorem lexical_below (hb : BaseReady cwd base t) {names : List Str}
    (h : ∀ c ∈ names, ProperName c ∧ '/' ∉ c ∧ nul ∉ c) :
    lexical cwd (below base names) = names.reverse ++ lexical cwd base := by
  rw [lexical, components_below base hb.nul_free (fun c hc ↦ (h c hc).2), origin_below hb,
    List.foldl_append, foldl_descend (fun c hc ↦ (h c hc).1)]
  rfl

theorem lexical_dst (hb : BaseReady cwd base t) (hn : mv.Named) :
    lexical cwd (mv.dst base) = mv.target cwd base := by
  rw [Move.dst, lexical_below hb hn]
  simp [Move.target, Move.level]

theorem walk_base (hb : BaseReady cwd base t) (hk : KeepsDirs t s) :
    s.walk (origin cwd base) (components base) = some (lexical cwd base) :=
  Volume.walk_of_find (hk.find hb.found)

theorem find_below (hb : BaseReady cwd base t) (hk : KeepsDirs t s) {names : List Str}
    (h : ∀ c ∈ names, '/' ∉ c ∧ nul ∉ c) :
    s.find cwd (below base names) = s.walk (lexical cwd base) names := by
  have hnul := nul_notMem_below base hb.nul_free (fun c hc ↦ (h c hc).2)
  rw [Volume.find, if_neg (by rw [cString_of_nul_free hnul]; exact below_ne_nil hb names),
    origin_below hb, components_below base hb.nul_free h, Volume.walk_append, walk_base hb hk]
  rfl

theorem slot_below (hb : BaseReady cwd base t) (hk : KeepsDirs t s) {names : List Str} {c : Str}
    (h : ∀ d ∈ names ++ [c], ProperName d ∧ '/' ∉ d ∧ nul ∉ d) :
    components (below base (names ++ [c])) = components base ++ names ++ [c] ∧
    s.slot (origin cwd (below base (names ++ [c]))) (components base ++ names ++ [c]) =
      (s.walk (lexical cwd base) names).bind
        (fun m ↦ if s.searchable m then some (c :: m) else none) := by
  have hcomp := components_below base hb.nul_free (fun d hd ↦ (h d hd).2)
  refine ⟨by rw [hcomp, List.append_assoc], ?_⟩
  rw [Volume.slot_append_proper _ _ _ (h c (by simp)).1, origin_below hb, Volume.walk_append,
    walk_base hb hk]
  rfl

end Resolution

def Move.Made (k : ℕ) (s : Volume β) : Prop :=
  ∀ j ≤ mv.parents.length, (j ≤ k → s.modifiable (mv.level cwd base j) = true) ∧
    (k < j → s.node (mv.level cwd base j) = none)

section Levels

variable {cwd base mv} {t s : Volume β} {k j : ℕ}

variable (cwd base) in
theorem level_succ (hn : mv.Named) (hj : j < mv.parents.length) :
    ∃ c, (ProperName c ∧ '/' ∉ c ∧ nul ∉ c) ∧ mv.parents.take (j + 1) = mv.parents.take j ++ [c] ∧
      mv.level cwd base (j + 1) = c :: mv.level cwd base j := by
  have htake := List.take_succ_eq_append_getElem hj
  refine ⟨_, hn _ (by simp), htake, ?_⟩
  rw [Move.level, htake, List.reverse_append]
  rfl

theorem named_take (hn : mv.Named) (j : ℕ) :
    ∀ c ∈ mv.parents.take j, ProperName c ∧ '/' ∉ c ∧ nul ∉ c :=
  fun c hc ↦ hn c (List.mem_append_left _ (List.mem_of_mem_take hc))

theorem find_path (hb : BaseReady cwd base t) (hn : mv.Named) (hk : KeepsDirs t s) (j : ℕ) :
    s.find cwd (mv.path base j) = s.walk (lexical cwd base) (mv.parents.take j) :=
  find_below hb hk (fun c hc ↦ (named_take hn j c hc).2)

theorem find_path_level (hb : BaseReady cwd base t) (hn : mv.Named) (hk : KeepsDirs t s) {l : Loc}
    (h : s.find cwd (mv.path base j) = some l) : l = mv.level cwd base j := by
  rw [find_path hb hn hk] at h
  rw [Volume.walk_foldl h, foldl_descend (fun c hc ↦ (named_take hn j c hc).1)]
  rfl

theorem Move.Made.searchable (h : mv.Made cwd base k s) (hj : j ≤ mv.parents.length) (hjk : j ≤ k) :
    s.searchable (mv.level cwd base j) = true := by
  obtain ⟨p, hp, -, hx⟩ := Volume.dir_of_modifiable ((h j hj).1 hjk)
  simp only [Volume.searchable, hp, hx]

theorem walk_level (hn : mv.Named) (h : mv.Made cwd base k s) (hj : j ≤ mv.parents.length)
    (hjk : j ≤ k + 1) :
    s.walk (lexical cwd base) (mv.parents.take j) = some (mv.level cwd base j) := by
  induction j with
  | zero => simp [Volume.walk, Move.level]
  | succ j ih =>
    obtain ⟨c, hc, htake, hlevel⟩ := level_succ cwd base hn hj
    have hs := h.searchable (j := j) (by omega) (by omega)
    rw [htake, Volume.walk_append, ih (by omega) (by omega), hlevel]
    simp only [Option.bind_some, Volume.walk, hs, if_true, descend_proper hc.1]

theorem access_path (hb : BaseReady cwd base t) (hn : mv.Named) (hk : KeepsDirs t s)
    (h : mv.Made cwd base k s) (hj : j ≤ mv.parents.length) :
    access cwd (mv.path base j) writeSearch s = decide (j ≤ k) := by
  by_cases hjk : j ≤ k
  · obtain ⟨p, hp, hw, hx⟩ := Volume.dir_of_modifiable ((h j hj).1 hjk)
    simp [access, find_path hb hn hk, walk_level hn h hj (by omega), hp, Node.perm, Perm.allows,
      writeSearch, hw, hx, hjk]
  · have hnone := (h j hj).2 (by omega)
    unfold access
    cases hf : s.find cwd (mv.path base j) with
    | none => simp [hjk]
    | some l =>
      obtain rfl := find_path_level hb hn hk hf
      simp [hnone, hjk]

theorem dirEntry_path (hb : BaseReady cwd base t) (hn : mv.Named) (hk : KeepsDirs t s)
    (h : mv.Made cwd base k s) (hkn : k < mv.parents.length) :
    s.dirEntry cwd (mv.path base (k + 1)) = some (mv.level cwd base (k + 1)) := by
  obtain ⟨c, hc, htake, hlevel⟩ := level_succ cwd base hn hkn
  have hnames : ∀ d ∈ mv.parents.take k ++ [c], ProperName d ∧ '/' ∉ d ∧ nul ∉ d := by
    rw [← htake]
    exact named_take hn (k + 1)
  obtain ⟨hcomp, hslot⟩ := slot_below hb hk hnames
  rw [Volume.dirEntry, Move.path, htake, hcomp, List.rdropWhile_concat_neg _ _ _ (by simpa using hc.1.1),
    hslot, walk_level hn h (by omega) (by omega), hlevel]
  simp [h.searchable (j := k) (by omega) le_rfl]

theorem entry_dst (hb : BaseReady cwd base t) (hn : mv.Named) (hk : KeepsDirs t s)
    (h : mv.Made cwd base mv.parents.length s) :
    s.entry cwd (mv.dst base) = some (mv.target cwd base) := by
  obtain ⟨hcomp, hslot⟩ := slot_below hb hk hn
  have hwalk := walk_level hn h le_rfl (by omega)
  rw [List.take_length] at hwalk
  rw [Volume.entry, Move.dst, hcomp, hslot, hwalk]
  simp [h.searchable (j := mv.parents.length) le_rfl le_rfl, Move.target]

theorem mkdirs_path (hb : BaseReady cwd base t) (hn : mv.Named) (hj : j < mv.parents.length)
    (mode : ℕ) :
    mkdirs (mv.path base (j + 1)) mode =
      .call (.access (mv.path base j) writeSearch) (fun ok ↦
        if ok then makeLast (mv.path base (j + 1)) mode
        else (mkdirs (mv.path base j) mode).bind (fun r ↦
          if r ≠ 0 then .ret (-1) else makeLast (mv.path base (j + 1)) mode)) := by
  obtain ⟨c, hc, htake, -⟩ := level_succ cwd base hn hj
  obtain ⟨hr, hinitial⟩ := rfind_below base (mv.parents.take j) hc.2.1
  rw [mkdirs_eq]
  simp only [Move.path, htake, hr, hinitial, below_ne_nil hb, if_false]

theorem ensureParent_dst (hn : mv.Named) :
    ensureParent (mv.dst base) =
      .call (.access (mv.path base mv.parents.length) writeSearch) (fun ok ↦
        if ok then .ret 0
        else (mkdirs (mv.path base mv.parents.length) 0o775).bind
          (fun r ↦ .ret (if r ≠ 0 then -1 else 0))) := by
  obtain ⟨hr, hinitial⟩ := rfind_below base mv.parents (hn mv.name (by simp)).2.1
  simp only [ensureParent, Move.dst, hr, hinitial, Move.path, List.take_length]

theorem Move.Ready.parent_made (h : mv.Ready cwd base t) (hj : j < mv.parents.length)
    (hnext : t.modifiable (mv.level cwd base (j + 1)) = true) :
    t.modifiable (mv.level cwd base j) = true := by
  obtain ⟨c, -, -, hlevel⟩ := level_succ cwd base h.named hj
  obtain ⟨p, hp, -⟩ := Volume.dir_of_modifiable hnext
  obtain ⟨q, hq⟩ := t.parent_dir c (mv.level cwd base j) (by rw [← hlevel, hp]; simp)
  apply (h.parents j hj.le).resolve_left
  rw [hq]
  simp

theorem Move.Ready.above_made (h : mv.Ready cwd base t) (hk : k ≤ mv.parents.length)
    (hmade : t.modifiable (mv.level cwd base k) = true) (hjk : j ≤ k) :
    t.modifiable (mv.level cwd base j) = true := by
  induction k with
  | zero =>
    obtain rfl : j = 0 := by omega
    exact hmade
  | succ k ih =>
    rcases Nat.lt_or_ge k j with hlt | hge
    · obtain rfl : j = k + 1 := by omega
      exact hmade
    · exact ih (by omega) (h.parent_made hk hmade) hge

theorem Move.Ready.exists_made (hb : BaseReady cwd base t) (h : mv.Ready cwd base t) :
    ∃ k ≤ mv.parents.length, mv.Made cwd base k t := by
  let P (j : ℕ) : Prop := t.modifiable (mv.level cwd base j) = true
  have hzero : P 0 := by simpa [P, Move.level] using hb.modifiable
  have hlast : P (Nat.findGreatest P mv.parents.length) :=
    Nat.findGreatest_spec (Nat.zero_le _) hzero
  refine ⟨Nat.findGreatest P mv.parents.length, Nat.findGreatest_le _, fun j hj ↦ ⟨?_, ?_⟩⟩
  · exact h.above_made (Nat.findGreatest_le _) hlast
  · intro hlt
    exact (h.parents j hj).resolve_right (Nat.findGreatest_is_greatest hlt hj)

end Levels

end Calcsig.Store.MovePaths
