import Calcsig.Utils.MakeDirs

namespace Calcsig.Utils.MoveSuccess

open Foundation.Text Foundation.Lines Foundation.FileTree Foundation.FileCalls Foundation.Programs
open Utils.MoveFile Utils.MakeDirs

variable {β : Type}

/-- The move can be made: the source is a file that may be written, and the
destination is neither a directory nor below a regular file. -/
structure Possible (cwd : Loc) (t : Volume β) (src : Str) (dst : CanonicalPath) : Prop where
  source : ∃ s p b, t.find cwd src = some s ∧ t.node s = some (.file p b) ∧ p.write = true
  vacant : t.isDir (dst.place cwd) = false
  clear : ∀ m, m <:+ dst.place cwd → m ≠ dst.place cwd → t.isFile m = false

def DirectlyBelowRoot (dst : CanonicalPath) : Prop := dst.absolute = true ∧ dst.names.length = 1

instance (dst : CanonicalPath) : Decidable (DirectlyBelowRoot dst) :=
  inferInstanceAs (Decidable (_ ∧ _))

/-- The tree in which the destination only waits for the rename. -/
structure Ready (cwd : Loc) (t t' : Volume β) (dst : CanonicalPath) : Prop where
  onlyDirs : OnlyDirs t t'
  entry : t'.entry cwd dst.text = some (dst.place cwd)
  not_dir : t'.isDir (dst.place cwd) = false
  parent : t'.modifiable (dst.place cwd).tail = true

section Source

variable {cwd : Loc} {t t' : Volume β} {src : Str} {s : Loc} {p : Perm} {b : β}

theorem entry_of_file (hf : t.find cwd src = some s) (hs : t.node s = some (.file p b)) :
    t.entry cwd src = some s := by
  have hfile : t.isDir s = false := by simp only [Volume.isDir, hs]
  have hw := Volume.walk_of_find hf
  obtain ⟨cs, c, hc⟩ := (List.eq_nil_or_concat' (components src)).resolve_left (components_ne_nil src)
  rw [hc, Volume.walk_append] at hw
  obtain ⟨l, hl, hlast⟩ := Option.bind_eq_some_iff.mp hw
  simp only [Volume.walk] at hlast
  split at hlast
  · rename_i hsearch
    have hdir := Volume.isDir_of_searchable hsearch
    have hplace : descend l c = s := Option.some.inj hlast
    have hproper : ProperName c := by
      by_contra hn
      rcases descend_improper hn l with he | he
      · rw [← hplace, he, hdir] at hfile
        cases hfile
      · rw [← hplace, he, isDir_of_suffix hdir (List.tail_suffix l)] at hfile
        cases hfile
    rw [Volume.entry, hc, Volume.slot_append_proper _ _ _ hproper, hl, Option.bind_some,
      if_pos hsearch, ← descend_proper hproper, hplace]
  · cases hlast

theorem modifiable_parent (ht : Accessible cwd t) (hs : t.node s = some (.file p b)) :
    t.modifiable s.tail = true := by
  cases s with
  | nil =>
    obtain ⟨q, hq⟩ := t.root_dir
    simp [hq] at hs
  | cons c l =>
    obtain ⟨q, hq⟩ := t.parent_dir c l (by simp [hs])
    exact ht.modifiable l (by simp only [Volume.isDir, hq])

theorem access_source (hf : t.find cwd src = some s) (hs : t.node s = some (.file p b))
    (hp : p.write = true) : access cwd src ⟨false, true, false⟩ t = true := by
  simp [access, hf, hs, Node.perm, Perm.allows, hp]

theorem exec_mvfile (ha : access cwd src ⟨false, true, false⟩ t = true) {dst : Str} {r : ℤ}
    (hr : (ensureParent dst).exec (answer cwd) t = (r, t')) :
    ((mvfile src dst).exec (answer cwd) t).1 =
      if r ≠ 0 then -1 else if (rename cwd src dst t').1 then 0 else -1 := by
  have hanswer : answer cwd (.access src ⟨false, true, false⟩) t = (true, t) := by
    simp only [answer, ha]
  simp only [mvfile, Prog.exec_call, hanswer, Bool.true_eq_false, if_false, Prog.exec_bind, hr]
  split
  · rfl
  · rfl

theorem rename_ready (ht : Accessible cwd t) {dst : CanonicalPath} (hready : Ready cwd t t' dst)
    (hf : t.find cwd src = some s) (hs : t.node s = some (.file p b)) :
    (rename cwd src dst.text t').1 = true := by
  have hkeeps := hready.onlyDirs.keepsDirs
  have hs' := hready.onlyDirs.keeps hs
  have hfile : t'.isFile s = true := by simp only [Volume.isFile, hs']
  have hne : dst.place cwd ≠ [] := by simp [CanonicalPath.place, dst.ne_nil]
  have hmod := hkeeps.modifiable (modifiable_parent ht hs)
  simp only [rename, entry_of_file (hkeeps.find hf) hs', hready.entry]
  exact (moveFile_moved hfile hne hready.not_dir hmod hready.parent).1

end Source

section Parent

variable (path : CanonicalPath) (cwd : Loc)

def last : Str := path.names.getLast path.ne_nil

def parent (h : path.names.dropLast ≠ []) : CanonicalPath where
  absolute := path.absolute
  names := path.names.dropLast
  ne_nil := h
  named c hc := path.named c (List.dropLast_subset _ hc)

theorem names_eq : path.names = path.names.dropLast ++ [last path] :=
  (List.dropLast_append_getLast path.ne_nil).symm

theorem place_last : path.place cwd = last path :: (path.names.dropLast.reverse ++ path.start cwd) := by
  rw [CanonicalPath.place]
  nth_rewrite 1 [names_eq path]
  simp

theorem components_last :
    components path.text =
      (if path.absolute then [] :: path.names.dropLast else path.names.dropLast) ++ [last path] := by
  rw [path.components_text]
  nth_rewrite 1 2 [names_eq path]
  split <;> rfl

theorem last_named : ProperName (last path) ∧ '/' ∉ last path ∧ nul ∉ last path :=
  path.named _ (List.getLast_mem path.ne_nil)

theorem text_parent (h : path.names.dropLast ≠ []) :
    path.text = (parent path h).text ++ '/' :: last path := by
  have hrel : path.relative = (parent path h).relative ++ '/' :: last path := by
    rw [CanonicalPath.relative, names_eq path, intercalate_concat _ h]
    rfl
  unfold CanonicalPath.text
  rw [hrel]
  by_cases ha : path.absolute = true
  · rw [if_pos ha, if_pos (show (parent path h).absolute = true from ha)]
    rfl
  · rw [if_neg ha, if_neg (show ¬ (parent path h).absolute = true from ha)]

theorem text_ne_nil : path.text ≠ [] := by
  intro h
  have hlast := congrArg List.getLast? (components_last path)
  rw [h, List.getLast?_concat] at hlast
  exact (last_named path).1.1 (Option.some.inj hlast).symm

theorem components_parent (h : path.names.dropLast ≠ []) :
    components path.text = components (parent path h).text ++ [last path] := by
  rw [components_last, CanonicalPath.components_text]
  rfl

theorem directlyBelowRoot_iff :
    DirectlyBelowRoot path ↔ path.absolute = true ∧ path.names.dropLast = [] := by
  have hpos := List.length_pos_iff.mpr path.ne_nil
  rw [DirectlyBelowRoot, ← List.length_eq_zero_iff, List.length_dropLast]
  simp only [and_congr_right_iff]
  omega

end Parent

section Destination

variable {cwd : Loc} {t t' : Volume β} {src : Str} {dst : CanonicalPath}

theorem ready_of_walk (honly : OnlyDirs t t') {cs : List Str} {l : Loc}
    (hpath : components dst.text = cs ++ [last dst]) (hplace : dst.place cwd = last dst :: l)
    (hw : t'.walk (dst.start cwd) cs = some l) (hl : t'.modifiable l = true)
    (hdir : t'.isDir (dst.place cwd) = false) : Ready cwd t t' dst := by
  obtain ⟨q, hq, -, hx⟩ := Volume.dir_of_modifiable hl
  have hsearch : t'.searchable l = true := by simp only [Volume.searchable, hq, hx]
  refine ⟨honly, ?_, hdir, by rw [hplace]; exact hl⟩
  rw [Volume.entry, hpath, dst.origin_text, Volume.slot_append_proper _ _ _ (last_named dst).1, hw,
    Option.bind_some, if_pos hsearch, hplace]

theorem ensureParent_name (ht : Accessible cwd t) (h : Possible cwd t src dst)
    (hrel : dst.absolute = false) (hname : dst.names.dropLast = []) :
    (ensureParent dst.text).exec (answer cwd) t = (0, t) ∧ Ready cwd t t dst := by
  have hpath : components dst.text = [] ++ [last dst] := by
    rw [components_last, hrel, hname]
    rfl
  have hstart : dst.start cwd = cwd := by simp [CanonicalPath.start, hrel]
  have hplace : dst.place cwd = last dst :: cwd := by rw [place_last, hname, hstart]; rfl
  have htext : dst.text = last dst := by
    rw [CanonicalPath.text, hrel, CanonicalPath.relative, names_eq dst, hname]
    simp
  refine ⟨?_, ready_of_walk (.refl t) hpath hplace (by rw [hstart]; rfl)
    (ht.modifiable cwd ht.cwd_dir) h.vacant⟩
  rw [ensureParent, htext, rfind_eq_none (last_named dst).2.1]
  rfl

theorem ensureParent_root (habs : dst.absolute = true) (hname : dst.names.dropLast = []) :
    (ensureParent dst.text).exec (answer cwd) t = (-1, t) := by
  have htext : dst.text = [] ++ '/' :: last dst := by
    rw [CanonicalPath.text, habs, CanonicalPath.relative, names_eq dst, hname]
    simp
  rw [ensureParent, htext, rfind_append [] (last_named dst).2.1]
  rfl

theorem exec_ensureParent (cwd : Loc) (t : Volume β) (sub : Str) {c : Str} (hc : '/' ∉ c) :
    (ensureParent (sub ++ '/' :: c)).exec (answer cwd) t =
      if access cwd sub writeSearch t then (0, t)
      else (if ((mkdirs sub 0o775).exec (answer cwd) t).1 ≠ 0 then -1 else 0,
        ((mkdirs sub 0o775).exec (answer cwd) t).2) := by
  rw [ensureParent, rfind_append sub hc]
  simp only [List.take_left, Prog.exec_call]
  cases ha : access cwd sub writeSearch t with
  | true => simp only [answer, ha, if_true, Prog.exec_ret]
  | false => simp only [answer, ha, Bool.false_eq_true, if_false, Prog.exec_bind, Prog.exec_ret]

theorem isDir_of_clear {m : Loc} (h : t.isFile m = false) (hm : t.node m ≠ none) :
    t.isDir m = true := by
  obtain ⟨n, hn⟩ := Option.ne_none_iff_exists'.mp hm
  cases n with
  | dir p => simp only [Volume.isDir, hn]
  | file p b => simp [Volume.isFile, hn] at h

theorem ensureParent_below (ht : Accessible cwd t) (h : Possible cwd t src dst)
    (hdir : dst.names.dropLast ≠ []) :
    ∃ t', (ensureParent dst.text).exec (answer cwd) t = (0, t') ∧ Ready cwd t t' dst := by
  have hmode : Grants 0o775 := by decide
  set sub := parent dst hdir with hsub
  have hpath := components_parent dst hdir
  have hplace : dst.place cwd = last dst :: sub.place cwd := place_last dst cwd
  have horigin : origin cwd sub.text = dst.start cwd := sub.origin_text cwd
  have hclear : ∀ m, m <:+ sub.place cwd → t.isFile m = false := by
    intro m hm
    refine h.clear m (hplace ▸ hm.trans (List.suffix_cons _ _)) ?_
    rintro rfl
    have hlen := hm.length_le
    rw [hplace, List.length_cons] at hlen
    omega
  have hexec := exec_ensureParent cwd t sub.text (last_named dst).2.1
  rw [← text_parent dst hdir] at hexec
  have hreached := reached_foldl ht hmode (node_origin_ne_none ht sub.text) (components sub.text)
  have hsettled := settled_canonical ht hmode sub
  have hmkdirs := exec_mkdirs ht hmode sub.nul_notMem_text
  revert hreached hsettled hmkdirs
  generalize (components sub.text).foldl (advance (Perm.ofMode 0o775) t) _ = s
  intro hreached hsettled hmkdirs
  cases s with
  | there l =>
    obtain ⟨rfl, hnode⟩ := hsettled
    have hl := isDir_of_clear (hclear _ List.suffix_rfl) hnode
    have hne : cString sub.text ≠ [] := by
      rw [cString_of_nul_free sub.nul_notMem_text]
      exact text_ne_nil sub
    rw [access_dir ht hne hreached.1 hl, if_pos rfl] at hexec
    exact ⟨t, hexec, ready_of_walk (.refl t) hpath hplace (horigin ▸ hreached.1) (ht.modifiable _ hl)
      h.vacant⟩
  | made l t' =>
    obtain ⟨rfl, -, hfilled⟩ := hsettled
    obtain ⟨hnone, -, hw⟩ := hreached
    rw [access_missing (missing_of_made hnone hw), if_neg Bool.false_ne_true, hmkdirs] at hexec
    have hmod : t'.modifiable (sub.place cwd) = true := by
      simp [Volume.modifiable, hfilled.node_self hnone, show _ ∧ _ from hmode]
    refine ⟨t', hexec, ready_of_walk hfilled.onlyDirs hpath hplace (horigin ▸ hw) hmod ?_⟩
    rw [hplace, Volume.isDir, hfilled.node_child hnone]
  | stuck t' =>
    obtain ⟨-, m, hm, -, hnode, hnot⟩ := hsettled
    rw [isDir_of_clear (hclear m hm) hnode] at hnot
    cases hnot

end Destination

/-- A possible move succeeds exactly when its destination is not written as a
name directly below the root. -/
theorem mvfile_succeeds_iff {cwd : Loc} {t : Volume β} (ht : Accessible cwd t) {src : Str}
    {dst : CanonicalPath} (h : Possible cwd t src dst) :
    ((mvfile src dst.text).exec (answer cwd) t).1 = 0 ↔ ¬ DirectlyBelowRoot dst := by
  obtain ⟨s, p, b, hf, hs, hp⟩ := h.source
  have haccess := access_source hf hs hp
  have hmoved {t' : Volume β} (hexec : (ensureParent dst.text).exec (answer cwd) t = (0, t'))
      (hready : Ready cwd t t' dst) : ((mvfile src dst.text).exec (answer cwd) t).1 = 0 := by
    rw [exec_mvfile haccess hexec, rename_ready ht hready hf hs]
    rfl
  rw [directlyBelowRoot_iff]
  by_cases hname : dst.names.dropLast = []
  · cases habs : dst.absolute with
    | true =>
      rw [exec_mvfile haccess (ensureParent_root habs hname)]
      simp [hname]
    | false =>
      obtain ⟨hexec, hready⟩ := ensureParent_name ht h habs hname
      simp [hmoved hexec hready]
  · obtain ⟨t', hexec, hready⟩ := ensureParent_below ht h hname
    simp [hmoved hexec hready, hname]

section Sample

theorem singleFile_node (l : Loc) : singleFile.node l =
    if l = ["a".toList] then some (.file ⟨true, true, false⟩ 7)
    else if l = [] then some (.dir ⟨true, true, true⟩) else none := by
  rw [singleFile, storeFile_node _ _ (by decide) (by decide)]
  rfl

theorem accessible_singleFile : Accessible [] singleFile := by
  refine ⟨by decide, fun l hl ↦ ?_⟩
  obtain ⟨p, hp⟩ := Volume.dir_of_isDir hl
  rw [singleFile_node] at hp
  split at hp
  · cases hp
  · split at hp
    · rename_i hroot
      rw [hroot]
      decide
    · cases hp

theorem possible_singleFile {dst : CanonicalPath} (h : "a".toList ∉ dst.names) :
    Possible [] singleFile "a".toList dst := by
  have hplace : dst.place [] = dst.names.reverse := by simp [CanonicalPath.place, CanonicalPath.start]
  have hne : dst.names.reverse ≠ [] := by simpa using dst.ne_nil
  have hsuffix (m : Loc) (hm : m <:+ dst.names.reverse) : m ≠ ["a".toList] := by
    rintro rfl
    exact h (List.mem_reverse.mp (hm.subset List.mem_cons_self))
  refine ⟨⟨["a".toList], ⟨true, true, false⟩, 7, by decide, by decide, rfl⟩, ?_, fun m hm _ ↦ ?_⟩
  · simp only [hplace, Volume.isDir, singleFile_node, hsuffix _ List.suffix_rfl, hne, if_false]
  · rw [hplace] at hm
    simp only [Volume.isFile, singleFile_node, hsuffix m hm, if_false]
    split
    · rename_i he
      split at he <;> cases he
    · rfl

def nested : CanonicalPath where
  absolute := false
  names := ["b".toList, "c".toList]
  ne_nil := by simp
  named := by decide

def topLevel : CanonicalPath where
  absolute := true
  names := ["b".toList]
  ne_nil := by simp
  named := by decide

theorem mvfile_succeeds_iff_instance :
    Possible [] singleFile "a".toList nested ∧
      ((mvfile "a".toList nested.text).exec (answer []) singleFile).1 = 0 := by
  have hpossible : Possible [] singleFile "a".toList nested := possible_singleFile (by decide)
  exact ⟨hpossible, (mvfile_succeeds_iff accessible_singleFile hpossible).mpr (by decide)⟩

/-- The file `a` of the root directory cannot be moved to `/b`. -/
theorem mvfile_root_refused :
    Accessible [] singleFile ∧ Possible [] singleFile "a".toList topLevel ∧
      topLevel.text = "/b".toList ∧
      ((mvfile "a".toList topLevel.text).exec (answer []) singleFile).1 = -1 :=
  ⟨accessible_singleFile, possible_singleFile (by decide), by decide +kernel, by decide +kernel⟩

end Sample

end Calcsig.Utils.MoveSuccess
