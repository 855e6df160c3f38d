import Calcsig.Foundation.Lines
import Calcsig.Utils.MoveFile

namespace Calcsig.Utils.MakeDirs

open Foundation.Text Foundation.Lines Foundation.FileTree Foundation.FileCalls Foundation.Programs
open Utils.MoveFile

variable {β : Type}

/-- Every directory may be written and searched by the caller. -/
structure Accessible (cwd : Loc) (t : Volume β) : Prop where
  cwd_dir : t.isDir cwd = true
  modifiable : ∀ l, t.isDir l = true → t.modifiable l = true

def Grants (mode : ℕ) : Prop := (Perm.ofMode mode).write = true ∧ (Perm.ofMode mode).exec = true

instance (mode : ℕ) : Decidable (Grants mode) := inferInstanceAs (Decidable (_ ∧ _))

/-- The missing places on the way down to `l`, and `l` itself, have become
directories; nothing else has changed. -/
def Filled (p : Perm) (t : Volume β) (l : Loc) (t' : Volume β) : Prop :=
  ∀ m, t'.node m = if t.node m = none ∧ m <:+ l then some (.dir p) else t.node m

/-- How far a path has been followed from the left: to an existing place, to a
directory made for it, or no further. -/
inductive Progress (β : Type)
  | there : Loc → Progress β
  | made : Loc → Volume β → Progress β
  | stuck : Volume β → Progress β

def advance (p : Perm) (t : Volume β) : Progress β → Str → Progress β
  | .there l, c =>
    if t.isDir l then
      if (t.node (descend l c)).isSome then .there (descend l c)
      else .made (descend l c) (makeDir t (descend l c) p).2
    else .stuck t
  | .made l t', c => if ProperName c then .made (c :: l) (makeDir t' (c :: l) p).2 else .stuck t'
  | .stuck t', _ => .stuck t'

def Progress.result (t : Volume β) : Progress β → ℤ × Volume β
  | .there _ => (-1, t)
  | .made _ t' => (0, t')
  | .stuck t' => (-1, t')

def Missing (t : Volume β) (l₀ : Loc) (cs : List Str) : Prop :=
  ∀ l, t.walk l₀ cs = some l → t.node l = none

def Reached (p : Perm) (t : Volume β) (l₀ : Loc) (cs : List Str) : Progress β → Prop
  | .there l => t.walk l₀ cs = some l ∧ t.node l ≠ none
  | .made l t' => t.node l = none ∧ Filled p t l t' ∧ t'.walk l₀ cs = some l
  | .stuck _ => Missing t l₀ cs

section Places

variable {t t' : Volume β} {l : Loc} {c : Str} {p : Perm}

theorem descend_improper (h : ¬ ProperName c) (l : Loc) : descend l c = l ∨ descend l c = l.tail := by
  unfold descend
  split
  · exact .inl rfl
  · split
    · exact .inr rfl
    · rename_i hdot hdots
      simp only [not_or] at hdot
      exact absurd ⟨hdot.1, hdot.2, hdots⟩ h

theorem node_tail_ne_none (h : t.node l ≠ none) : t.node l.tail ≠ none := by
  cases l with
  | nil => exact h
  | cons c l =>
    obtain ⟨q, hq⟩ := t.parent_dir c l h
    simp [hq]

theorem node_descend_improper (h : t.node l ≠ none) (hc : ¬ ProperName c) :
    t.node (descend l c) ≠ none := by
  rcases descend_improper hc l with he | he
  · rwa [he]
  · rw [he]
    exact node_tail_ne_none h

theorem node_child_none (h : t.node l = none) (c : Str) : t.node (c :: l) = none := by
  by_contra hne
  obtain ⟨q, hq⟩ := t.parent_dir c l hne
  simp [h] at hq

theorem Filled.node_self (hl : t.node l = none) (h : Filled p t l t') :
    t'.node l = some (.dir p) := by
  rw [h l, if_pos ⟨hl, List.suffix_rfl⟩]

theorem Filled.node_child (hl : t.node l = none) (h : Filled p t l t') (c : Str) :
    t'.node (c :: l) = none := by
  rw [h, if_neg, node_child_none hl c]
  rintro ⟨-, hs⟩
  have hlen := hs.length_le
  simp only [List.length_cons] at hlen
  omega

theorem Filled.onlyDirs (h : Filled p t l t') : OnlyDirs t t' := by
  refine ⟨fun {m n} hm ↦ ?_, fun {m n} hm hm' ↦ ?_⟩
  · rw [h m, if_neg (by simp [hm]), hm]
  · rw [h m] at hm'
    split at hm'
    · exact ⟨p, (Option.some.inj hm').symm⟩
    · simp [hm] at hm'

theorem Filled.keepsDirs (h : Filled p t l t') : KeepsDirs t t' := h.onlyDirs.keepsDirs

theorem node_of_suffix {m : Loc} (h : t.node l ≠ none) (hm : m <:+ l) : t.node m ≠ none := by
  obtain ⟨u, rfl⟩ := hm
  by_cases hu : u = []
  · simpa [hu] using h
  · obtain ⟨q, hq⟩ := Volume.dir_of_below hu h
    simp [hq]

theorem filled_first (hmod : t.modifiable l = true) (hc : t.node (c :: l) = none) (p : Perm) :
    Filled p t (c :: l) (makeDir t (c :: l) p).2 := by
  obtain ⟨-, hmade⟩ := makeDir_made (List.cons_ne_nil c l) hc hmod p
  obtain ⟨q, hq, -⟩ := Volume.dir_of_modifiable hmod
  intro m
  by_cases hm : m = c :: l
  · rw [hm, hmade.made, if_pos ⟨hc, List.suffix_rfl⟩]
  · rw [hmade.frame m hm, if_neg]
    rintro ⟨hnone, hs⟩
    have hl := (List.suffix_cons_iff.mp hs).resolve_left hm
    exact node_of_suffix (by simp [hq]) hl hnone

theorem Filled.searchable (hp : p.write = true ∧ p.exec = true) (hl : t.node l = none)
    (h : Filled p t l t') : t'.searchable l = true := by
  simp only [Volume.searchable, h.node_self hl, hp.2]

theorem Filled.makeDir_child (hp : p.write = true ∧ p.exec = true) (hl : t.node l = none)
    (h : Filled p t l t') (c : Str) :
    (makeDir t' (c :: l) p).1 = true ∧ DirMade t' (makeDir t' (c :: l) p).2 (c :: l) p := by
  have hmod : t'.modifiable l = true := by simp [Volume.modifiable, h.node_self hl, hp]
  exact makeDir_made (List.cons_ne_nil c l) (h.node_child hl c) hmod p

theorem filled_next (hp : p.write = true ∧ p.exec = true) (hl : t.node l = none)
    (h : Filled p t l t') (c : Str) : Filled p t (c :: l) (makeDir t' (c :: l) p).2 := by
  obtain ⟨-, hmade⟩ := h.makeDir_child hp hl c
  intro m
  by_cases hm : m = c :: l
  · rw [hm, hmade.made, if_pos ⟨node_child_none hl c, List.suffix_rfl⟩]
  · rw [hmade.frame m hm, h m]
    simp only [List.suffix_cons_iff, hm, false_or]

end Places

section Steps

variable {cwd : Loc} {t t' : Volume β} {l l₀ : Loc} {cs : List Str} {c : Str} {p : Perm}

theorem walk_concat (h : t.walk l₀ cs = some l) (c : Str) :
    t.walk l₀ (cs ++ [c]) = if t.searchable l then some (descend l c) else none := by
  simp only [Volume.walk_append, h, Option.bind_some, Volume.walk]

theorem missing_concat (h : Missing t l₀ cs) (c : Str) : Missing t l₀ (cs ++ [c]) := by
  intro m hm
  rw [Volume.walk_append] at hm
  obtain ⟨l, hl, hrest⟩ := Option.bind_eq_some_iff.mp hm
  simp [Volume.walk, Volume.searchable, h l hl] at hrest

theorem missing_of_made (hl : t.node l = none) (hw : t'.walk l₀ cs = some l) : Missing t l₀ cs := by
  intro m hm
  rw [Volume.walk_foldl hm, ← Volume.walk_foldl hw, hl]

theorem Accessible.searchable (ht : Accessible cwd t) (h : t.isDir l = true) :
    t.searchable l = true := by
  obtain ⟨q, hq, -, hx⟩ := Volume.dir_of_modifiable (ht.modifiable l h)
  simp only [Volume.searchable, hq, hx]

theorem proper_of_missing (h : t.node l ≠ none) (hc : t.node (descend l c) = none) : ProperName c := by
  by_contra hn
  exact node_descend_improper h hn hc

theorem reached_advance (ht : Accessible cwd t) (hp : p.write = true ∧ p.exec = true)
    {s : Progress β} (h : Reached p t l₀ cs s) (c : Str) :
    Reached p t l₀ (cs ++ [c]) (advance p t s c) := by
  cases s with
  | there l =>
    obtain ⟨hw, hl⟩ := h
    simp only [advance]
    split
    · rename_i hdir
      have hwalk : t.walk l₀ (cs ++ [c]) = some (descend l c) := by
        rw [walk_concat hw, if_pos (ht.searchable hdir)]
      split
      · rename_i hsome
        exact ⟨hwalk, Option.isSome_iff_ne_none.mp hsome⟩
      · rename_i hnone
        rw [Option.not_isSome_iff_eq_none] at hnone
        have hc := proper_of_missing hl hnone
        rw [descend_proper hc] at hnone hwalk ⊢
        have hfilled := filled_first (ht.modifiable l hdir) hnone p
        exact ⟨hnone, hfilled, hfilled.keepsDirs.walk hwalk⟩
    · rename_i hfile
      intro m hm
      rw [walk_concat hw, if_neg (fun hs ↦ hfile (Volume.isDir_of_searchable hs))] at hm
      cases hm
  | made l t' =>
    obtain ⟨hl, hfilled, hw⟩ := h
    simp only [advance]
    split
    · rename_i hc
      obtain ⟨-, hmade⟩ := hfilled.makeDir_child hp hl c
      refine ⟨node_child_none hl c, filled_next hp hl hfilled c, hmade.onlyDirs.keepsDirs.walk ?_⟩
      rw [walk_concat hw, if_pos (hfilled.searchable hp hl), descend_proper hc]
    · exact missing_concat (missing_of_made hl hw) c
  | stuck t' => exact missing_concat h c

theorem reached_foldl (ht : Accessible cwd t) (hp : p.write = true ∧ p.exec = true)
    (hl : t.node l₀ ≠ none) (cs : List Str) :
    Reached p t l₀ cs (cs.foldl (advance p t) (.there l₀)) := by
  induction cs using List.reverseRecOn with
  | nil => exact ⟨rfl, hl⟩
  | append_singleton cs c ih =>
    rw [List.foldl_append]
    exact reached_advance ht hp ih c

end Steps

section Calls

variable {cwd : Loc} {t t' : Volume β} {l : Loc} {cs : List Str} {c path : Str} {mode : ℕ}

theorem foldl_descend_rdropWhile (cs : List Str) (l : Loc) :
    (cs.rdropWhile (· = [])).foldl descend l = cs.foldl descend l := by
  induction cs using List.reverseRecOn with
  | nil => rfl
  | append_singleton cs c ih =>
    by_cases hc : c = []
    · rw [List.rdropWhile_concat_pos _ _ _ (by simpa using hc), ih, List.foldl_append, hc]
      simp [descend]
    · rw [List.rdropWhile_concat_neg _ _ _ (by simpa using hc)]

theorem mkdir_existing (h : t.node (lexical cwd path) ≠ none) (mode : ℕ) :
    mkdir cwd path mode t = (false, t) := by
  rcases mkdir_cases cwd path mode t with he | ⟨l, hl, -, hmade⟩
  · exact he
  · have hplace : l = lexical cwd path := by
      rw [Volume.walk_foldl (Volume.slot_walk hl), foldl_descend_rdropWhile]
      rfl
    exact absurd (hplace ▸ hmade.fresh) h

theorem mkdir_child (hpath : components path = cs ++ [c]) (hw : t.walk (origin cwd path) cs = some l)
    (hc : ProperName c) (mode : ℕ) :
    mkdir cwd path mode t =
      if t.searchable l then makeDir t (c :: l) (Perm.ofMode mode) else (false, t) := by
  have hdrop : (cs ++ [c]).rdropWhile (· = []) = cs ++ [c] :=
    List.rdropWhile_concat_neg _ _ _ (by simpa using hc.1)
  simp only [mkdir, Volume.dirEntry, hpath, hdrop, Volume.slot_append_proper _ _ _ hc, hw,
    Option.bind_some]
  split
  · rename_i hs
    split at hs
    · rename_i hx
      rw [if_pos hx, Option.some.inj hs]
    · cases hs
  · rename_i hs
    split at hs
    · cases hs
    · rename_i hx
      rw [if_neg hx]

theorem lexical_concat (hpath : components path = cs ++ [c])
    (hw : t.walk (origin cwd path) cs = some l) : lexical cwd path = descend l c := by
  rw [lexical, hpath, List.foldl_append, Volume.walk_foldl hw]
  rfl

theorem exec_makeLast (path : Str) (mode : ℕ) (t : Volume β) :
    (makeLast path mode).exec (answer cwd) t =
      (if (mkdir cwd path mode t).1 then 0 else -1, (mkdir cwd path mode t).2) := rfl

theorem makeLast_there (ht : Accessible cwd t) (hpath : components path = cs ++ [c])
    (h : Reached (Perm.ofMode mode) t (origin cwd path) cs (.there l)) :
    (makeLast path mode).exec (answer cwd) t =
      (advance (Perm.ofMode mode) t (.there l) c).result t := by
  obtain ⟨hw, hl⟩ := h
  rw [exec_makeLast]
  by_cases hex : t.node (descend l c) = none
  · have hc := proper_of_missing hl hex
    rw [descend_proper hc] at hex
    rw [mkdir_child hpath hw hc]
    simp only [advance, descend_proper hc, hex, Option.isSome_none]
    by_cases hdir : t.isDir l = true
    · obtain ⟨hok, -⟩ := makeDir_made (List.cons_ne_nil c l) hex (ht.modifiable l hdir)
        (Perm.ofMode mode)
      rw [if_pos hdir, if_pos (ht.searchable hdir), hok]
      rfl
    · rw [if_neg (fun hs ↦ hdir (Volume.isDir_of_searchable hs)), if_neg hdir]
      rfl
  · rw [mkdir_existing (by rwa [lexical_concat hpath hw])]
    simp only [advance, Option.isSome_iff_ne_none.mpr hex, if_true]
    by_cases hdir : t.isDir l = true
    · rw [if_pos hdir]
      rfl
    · rw [if_neg hdir]
      rfl

theorem makeLast_made (hmode : Grants mode) (hpath : components path = cs ++ [c])
    (h : Reached (Perm.ofMode mode) t (origin cwd path) cs (.made l t')) :
    (makeLast path mode).exec (answer cwd) t' =
      (advance (Perm.ofMode mode) t (.made l t') c).result t := by
  obtain ⟨hl, hfilled, hw⟩ := h
  rw [exec_makeLast]
  by_cases hc : ProperName c
  · obtain ⟨hok, -⟩ := hfilled.makeDir_child hmode hl c
    simp only [mkdir_child hpath hw hc, hfilled.searchable hmode hl, if_true, hok, advance, hc,
      Progress.result]
  · have hex : t'.node (descend l c) ≠ none :=
      node_descend_improper (by simp [hfilled.node_self hl]) hc
    rw [mkdir_existing (by rwa [lexical_concat hpath hw])]
    simp only [advance, hc, if_false]
    rfl

theorem access_missing (h : Missing t (origin cwd path) (components path)) (want : Perm) :
    access cwd path want t = false := by
  unfold access
  cases hf : t.find cwd path with
  | none => rfl
  | some m => simp [h m (Volume.walk_of_find hf)]

theorem access_dir (ht : Accessible cwd t) (hne : cString path ≠ [])
    (hw : t.walk (origin cwd path) (components path) = some l) (hl : t.isDir l = true) :
    access cwd path writeSearch t = true := by
  obtain ⟨q, hq, hwr, hx⟩ := Volume.dir_of_modifiable (ht.modifiable l hl)
  simp only [access, Volume.find, hne, if_false, hw, Option.bind_some, hq, Node.perm, Perm.allows,
    writeSearch, hwr, hx]
  rfl

end Calls

theorem isDir_origin {cwd : Loc} {t : Volume β} (ht : Accessible cwd t) (path : Str) :
    t.isDir (origin cwd path) = true := by
  unfold origin
  split
  · obtain ⟨q, hq⟩ := t.root_dir
    simp only [Volume.isDir, hq]
  · exact ht.cwd_dir

theorem node_origin_ne_none {cwd : Loc} {t : Volume β} (ht : Accessible cwd t) (path : Str) :
    t.node (origin cwd path) ≠ none := by
  obtain ⟨q, hq⟩ := Volume.dir_of_isDir (isDir_origin ht path)
  simp [hq]

theorem advance_empty {t : Volume β} {l : Loc} (h : t.isDir l = true) (p : Perm) :
    advance p t (.there l) [] = .there l := by
  obtain ⟨q, hq⟩ := Volume.dir_of_isDir h
  simp [advance, h, descend, hq]

theorem exec_below {cwd : Loc} {t : Volume β} (ht : Accessible cwd t) {mode : ℕ}
    (hmode : Grants mode) {path sub c : Str} (hpath : components path = components sub ++ [c])
    (horigin : origin cwd path = origin cwd sub) (hne : cString sub ≠ []) {s : Progress β}
    (hs : Reached (Perm.ofMode mode) t (origin cwd path) (components sub) s)
    (hsub : (mkdirs sub mode).exec (answer cwd) t = s.result t) :
    (if access cwd sub writeSearch t then makeLast path mode
      else (mkdirs sub mode).bind (fun r ↦
        if r ≠ 0 then .ret (-1) else makeLast path mode)).exec (answer cwd) t =
      (advance (Perm.ofMode mode) t s c).result t := by
  cases s with
  | there l =>
    have hthere := makeLast_there ht hpath hs
    by_cases hdir : t.isDir l = true
    · rw [if_pos (access_dir ht hne (horigin ▸ hs.1) hdir), hthere]
    · split
      · exact hthere
      · rw [Prog.exec_bind, hsub]
        simp only [advance, hdir]
        rfl
  | made l t' =>
    have hmissing := missing_of_made hs.1 hs.2.2
    rw [access_missing (horigin ▸ hmissing), if_neg Bool.false_ne_true, Prog.exec_bind, hsub]
    exact makeLast_made hmode hpath hs
  | stuck t' =>
    rw [access_missing (horigin ▸ hs), if_neg Bool.false_ne_true, Prog.exec_bind, hsub]
    rfl

theorem split_last {path : Str} {pos : ℕ} (hnul : nul ∉ path) (hr : rfind '/' path = some pos) :
    ∃ c, components path = components (path.take pos) ++ [c] ∧ nul ∉ path.take pos ∧
      ∀ cwd, path.take pos ≠ [] → origin cwd path = origin cwd (path.take pos) := by
  obtain ⟨c, hc, hsplit⟩ := rfind_split hr
  generalize path.take pos = sub at hsplit
  subst hsplit
  simp only [List.mem_append, List.mem_cons, not_or] at hnul
  refine ⟨c, ?_, hnul.1, fun cwd hne ↦ origin_append cwd hne _⟩
  rw [components_append hnul.1, components_name hc hnul.2.2]

/-- What `mkdirs` does, read from the left: the recursion from the right end of
the path comes to the same as following its components one by one. -/
theorem exec_mkdirs {cwd : Loc} {t : Volume β} (ht : Accessible cwd t) {mode : ℕ}
    (hmode : Grants mode) {path : Str} (hnul : nul ∉ path) :
    (mkdirs path mode).exec (answer cwd) t =
      ((components path).foldl (advance (Perm.ofMode mode) t)
        (.there (origin cwd path))).result t := by
  induction hn : path.length using Nat.strong_induction_on generalizing path with
  | _ n ih =>
    have hreached := reached_foldl ht hmode (node_origin_ne_none ht path)
    rw [mkdirs_eq]
    cases hr : rfind '/' path with
    | none =>
      have hpath : components path = [] ++ [path] := components_name (rfind_eq_none_iff.mp hr) hnul
      rw [hpath]
      exact makeLast_there ht hpath (hreached [])
    | some pos =>
      obtain ⟨c, hpath, hnul', horigin⟩ := split_last hnul hr
      have hlt := take_length_lt hr
      simp only [hpath, List.foldl_append]
      by_cases hempty : path.take pos = []
      · have hstart : components (path.take pos) = [[]] := by rw [hempty]; rfl
        have hw := hreached [[]]
        rw [if_pos hempty, hstart]
        simp only [List.foldl_cons, List.foldl_nil, advance_empty (isDir_origin ht path)] at hw ⊢
        exact makeLast_there ht (hstart ▸ hpath) hw
      · have hsub := ih (path.take pos).length (hn ▸ hlt) hnul' rfl
        rw [← horigin cwd hempty] at hsub
        rw [if_neg hempty]
        exact exec_below ht hmode hpath (horigin cwd hempty) (by rwa [cString_of_nul_free hnul'])
          (hreached _) hsub

/-- A path written `c₁/…/cₙ` or `/c₁/…/cₙ`, without empty components, `.` or
`..`. -/
structure CanonicalPath where
  absolute : Bool
  names : List Str
  ne_nil : names ≠ []
  named : ∀ c ∈ names, ProperName c ∧ '/' ∉ c ∧ nul ∉ c

namespace CanonicalPath

def relative (path : CanonicalPath) : Str := ['/'].intercalate path.names

def text (path : CanonicalPath) : Str :=
  if path.absolute then '/' :: path.relative else path.relative

def start (path : CanonicalPath) (cwd : Loc) : Loc := if path.absolute then [] else cwd

def place (path : CanonicalPath) (cwd : Loc) : Loc := path.names.reverse ++ path.start cwd

variable (path : CanonicalPath) (cwd : Loc)

theorem nul_notMem_relative : nul ∉ path.relative := by
  rw [relative, mem_intercalate_iff (by decide)]
  rintro ⟨c, hc, hmem⟩
  exact (path.named c hc).2.2 hmem

theorem nul_notMem_text : nul ∉ path.text := by
  have hslash : nul ≠ '/' := by decide
  unfold text
  split
  · simp [hslash, path.nul_notMem_relative]
  · exact path.nul_notMem_relative

theorem components_relative : components path.relative = path.names := by
  rw [components, cString_of_nul_free path.nul_notMem_relative, relative,
    List.splitOn_intercalate '/' (fun c hc ↦ (path.named c hc).2.1) path.ne_nil]

theorem components_text :
    components path.text = if path.absolute then [] :: path.names else path.names := by
  unfold text
  split
  · have happ := components_append (s := []) (by simp) path.relative
    rw [path.components_relative] at happ
    exact happ
  · exact path.components_relative

theorem relative_head : path.relative.head? ≠ some '/' := by
  obtain ⟨absolute, names, hne, hnamed⟩ := path
  obtain ⟨c, names, rfl⟩ := List.exists_cons_of_ne_nil hne
  obtain ⟨x, c, rfl⟩ := List.exists_cons_of_ne_nil (hnamed c (by simp)).1.1
  have hx := (hnamed (x :: c) (by simp)).2.1
  simp only [List.mem_cons, not_or] at hx
  cases names <;> simp [relative, Ne.symm hx.1]

theorem origin_text : origin cwd path.text = path.start cwd := by
  unfold text start origin
  cases path.absolute <;> simp [path.relative_head]

end CanonicalPath

def Free (t : Volume β) (place : Loc) : Prop :=
  t.node place = none ∧ ∀ m, m <:+ place → m ≠ place → t.node m = none ∨ t.isDir m = true

def Blocked (t : Volume β) (place : Loc) : Prop :=
  ∃ m, m <:+ place ∧ m ≠ place ∧ t.node m ≠ none ∧ t.isDir m = false

theorem not_free_of_blocked {t : Volume β} {place : Loc} (h : Blocked t place) : ¬ Free t place := by
  rintro ⟨-, hfree⟩
  obtain ⟨m, hm, hne, hsome, hdir⟩ := h
  rcases hfree m hm hne with hnone | hd
  · exact hsome hnone
  · simp [hd] at hdir

def Settled (p : Perm) (t : Volume β) (place : Loc) : Progress β → Prop
  | .there l => l = place ∧ t.node place ≠ none
  | .made l t' => l = place ∧ Free t place ∧ Filled p t place t'
  | .stuck t' => t' = t ∧ Blocked t place

section Names

variable {cwd : Loc} {t : Volume β} {l : Loc} {c : Str} {p : Perm}

theorem suffix_of_cons {m : Loc} (h : m <:+ c :: l) (hne : m ≠ c :: l) : m <:+ l :=
  (List.suffix_cons_iff.mp h).resolve_left hne

theorem isDir_of_suffix {m : Loc} (h : t.isDir l = true) (hm : m <:+ l) : t.isDir m = true := by
  obtain ⟨u, rfl⟩ := hm
  obtain ⟨q, hq⟩ := Volume.dir_of_isDir h
  by_cases hu : u = []
  · simpa [hu] using h
  · obtain ⟨q', hq'⟩ := Volume.dir_of_below (t := t) (l := m) hu (by simp [hq])
    simp only [Volume.isDir, hq']

theorem blocked_cons (h : Blocked t l) (c : Str) : Blocked t (c :: l) := by
  obtain ⟨m, hm, hne, hrest⟩ := h
  refine ⟨m, hm.trans (List.suffix_cons c l), ?_, hrest⟩
  rintro rfl
  have hlen := hm.length_le
  simp only [List.length_cons] at hlen
  omega

theorem settled_advance (ht : Accessible cwd t) (hp : p.write = true ∧ p.exec = true)
    {s : Progress β} (h : Settled p t l s) (hc : ProperName c) :
    Settled p t (c :: l) (advance p t s c) := by
  cases s with
  | there m =>
    obtain ⟨rfl, hm⟩ := h
    simp only [advance, descend_proper hc]
    split
    · rename_i hdir
      split
      · rename_i hsome
        exact ⟨rfl, Option.isSome_iff_ne_none.mp hsome⟩
      · rename_i hnone
        rw [Option.not_isSome_iff_eq_none] at hnone
        refine ⟨rfl, ⟨hnone, fun n hn hne ↦ ?_⟩, filled_first (ht.modifiable m hdir) hnone p⟩
        exact .inr (isDir_of_suffix hdir (suffix_of_cons hn hne))
    · rename_i hfile
      exact ⟨rfl, m, List.suffix_cons c m, by simp, hm, by simpa using hfile⟩
  | made m t' =>
    obtain ⟨rfl, ⟨hm, hfree⟩, hfilled⟩ := h
    simp only [advance, hc, if_true]
    refine ⟨rfl, ⟨node_child_none hm c, fun n hn hne ↦ ?_⟩, filled_next hp hm hfilled c⟩
    by_cases hnm : n = m
    · exact .inl (hnm ▸ hm)
    · exact hfree n (suffix_of_cons hn hne) hnm
  | stuck t' => exact ⟨h.1, blocked_cons h.2 c⟩

theorem settled_foldl (ht : Accessible cwd t) (hp : p.write = true ∧ p.exec = true)
    (hl : t.isDir l = true) {names : List Str} (h : ∀ c ∈ names, ProperName c) :
    Settled p t (names.reverse ++ l) (names.foldl (advance p t) (.there l)) := by
  induction names using List.reverseRecOn with
  | nil =>
    obtain ⟨q, hq⟩ := Volume.dir_of_isDir hl
    exact ⟨rfl, by simp [hq]⟩
  | append_singleton names c ih =>
    have hrest := ih (fun d hd ↦ h d (by simp [hd]))
    rw [List.foldl_append, List.reverse_append]
    exact settled_advance ht hp hrest (h c (by simp))

end Names

theorem settled_canonical {cwd : Loc} {t : Volume β} (ht : Accessible cwd t) {p : Perm}
    (hp : p.write = true ∧ p.exec = true) (path : CanonicalPath) :
    Settled p t (path.place cwd)
      ((components path.text).foldl (advance p t) (.there (origin cwd path.text))) := by
  have hdir := isDir_origin ht path.text
  rw [path.origin_text] at hdir ⊢
  have hfold := settled_foldl ht hp hdir (fun c hc ↦ (path.named c hc).1)
  rw [path.components_text]
  split
  · rw [List.foldl_cons, advance_empty hdir]
    exact hfold
  · exact hfold

/-- On a canonical path `mkdirs` succeeds exactly when nothing is there and
nothing but directories is in the way; it then adds the missing directories,
and otherwise it changes nothing. -/
theorem mkdirs_canonical {cwd : Loc} {t : Volume β} (ht : Accessible cwd t) {mode : ℕ}
    (hmode : Grants mode) (path : CanonicalPath) :
    let out := (mkdirs path.text mode).exec (answer cwd) t
    (out.1 = 0 ↔ Free t (path.place cwd)) ∧
      (out.1 = 0 → Filled (Perm.ofMode mode) t (path.place cwd) out.2) ∧
      (out.1 ≠ 0 → out = (-1, t)) := by
  intro out
  have hsettled := settled_canonical ht hmode path
  have hout : out = _ := exec_mkdirs ht hmode path.nul_notMem_text
  revert hsettled hout
  generalize (components path.text).foldl (advance (Perm.ofMode mode) t) _ = s
  intro hsettled hout
  rw [hout]
  cases s with
  | there l => exact ⟨by simp [Progress.result, Free, hsettled.2], by simp [Progress.result],
      fun _ ↦ rfl⟩
  | made l t' => exact ⟨by simp [Progress.result, hsettled.2.1], fun _ ↦ hsettled.2.2,
      by simp [Progress.result]⟩
  | stuck t' =>
    obtain ⟨rfl, hblocked⟩ := hsettled
    exact ⟨by simp [Progress.result, not_free_of_blocked hblocked], by simp [Progress.result],
      fun _ ↦ rfl⟩

theorem accessible_bare : Accessible [] (Volume.bare : Volume ℕ) := by
  refine ⟨rfl, fun l hl ↦ ?_⟩
  by_cases h : l = []
  · subst h
    rfl
  · simp [Volume.isDir, Volume.bare, h] at hl

theorem mkdirs_canonical_instance :
    let out := (mkdirs "/a/b".toList 0o775).exec (answer []) (Volume.bare : Volume ℕ)
    out.1 = 0 ∧ Filled (Perm.ofMode 0o775) Volume.bare ["b".toList, "a".toList] out.2 := by
  have h := mkdirs_canonical accessible_bare (show Grants 0o775 by decide)
    ⟨true, ["a".toList, "b".toList], by simp, by decide⟩
  have hzero : ((mkdirs "/a/b".toList 0o775).exec (answer []) (Volume.bare : Volume ℕ)).1 = 0 := by
    decide +kernel
  exact ⟨hzero, h.2.1 hzero⟩

end Calcsig.Utils.MakeDirs
