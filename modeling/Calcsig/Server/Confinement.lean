import Calcsig.Server.WorkerCalls
import Mathlib.Data.List.Infix

namespace Calcsig.Server.Confinement

open Foundation.Text Foundation.FileTree Foundation.FileCalls Foundation.Programs
open Foundation.Interleavings Utils.ContentSignature Utils.SigPath Utils.MoveFile
open Utils.RandString Store.Publishing Worker WorkerCalls

/-- The path of a published file: a letter and one of three numbers, two levels
of a hundred directories, and the first signature with an extension. -/
def StorePath (base path : Str) : Prop :=
  ∃ (letter : Char) (dv d1 d2 : ℕ) (sig1 : UInt32) (ext : Str), letter.isLower = true ∧
    (1 ≤ dv ∧ dv ≤ 3) ∧ d1 ≤ 99 ∧ d2 ≤ 99 ∧ '/' ∉ ext ∧
    path = base ++ '/' :: letter :: decimal dv ++ '/' :: decimal d1 ++ '/' :: decimal d2 ++
      '/' :: decimal sig1.toNat ++ '.' :: ext

variable (cwd : Loc) (base : Str)

def Below (l : Loc) : Prop := ∃ u, u ≠ [] ∧ l = u ++ storeRoot cwd base

def tmpLoc : Loc := lexical cwd (base ++ "/tmp/".toList)

/-- The directory of temporary files exists and has no subdirectories. -/
structure TmpFlat (t : Volume Bytes) : Prop where
  path : t.DirPath cwd (base ++ "/tmp/".toList)
  flat : ∀ c, t.isDir (c :: tmpLoc cwd base) = false

/-- A successful rename leads to a path of the store, and a directory that is
made lies below the base path. -/
structure StaysInside (c : FileCall Bytes) (t : Volume Bytes) : Prop where
  rename : ∀ src dst, c = .sys (.rename src dst) → (fileAnswer cwd c t).1 = true →
    StorePath base (cString dst)
  mkdir : ∀ l, t.isDir l = false → (fileAnswer cwd c t).2.isDir l = true → Below cwd base l

/-- A directory made under this path is not new, or it lies in the store and
outside the temporary files. -/
def Allowed (path : Str) : Prop :=
  ∀ t : Volume Bytes, TmpFlat cwd base t → ∀ l, t.dirEntry cwd path = some l →
    t.isDir l = true ∨ Below cwd base l ∧ ∀ c, l ≠ c :: tmpLoc cwd base

section Calls

variable {cwd base} {t t' : Volume Bytes}

theorem TmpFlat.of_sameDirs (h : TmpFlat cwd base t) (hs : SameDirs t t') :
    TmpFlat cwd base t' :=
  ⟨fun cs hcs ↦ (hs _).trans (h.path cs hcs), fun c ↦ (hs _).trans (h.flat c)⟩

theorem stays_of_sameDirs {c : FileCall Bytes} (h : TmpFlat cwd base t)
    (hs : SameDirs t (fileAnswer cwd c t).2)
    (hrename : ∀ src dst, c = .sys (.rename src dst) → StorePath base (cString dst)) :
    TmpFlat cwd base (fileAnswer cwd c t).2 ∧ StaysInside cwd base c t := by
  refine ⟨h.of_sameDirs hs, fun src dst hc _ ↦ hrename src dst hc, fun l hl hl' ↦ ?_⟩
  rw [hs l, hl] at hl'
  cases hl'

theorem stays_mkdir {path : Str} (hpath : Allowed cwd base path) (mode : ℕ)
    (h : TmpFlat cwd base t) :
    TmpFlat cwd base (answer cwd (.mkdir path mode) t).2 ∧
      StaysInside cwd base (.sys (.mkdir path mode)) t := by
  rcases mkdir_cases cwd path mode t with he | ⟨l, hl, -, hmade⟩
  · refine stays_of_sameDirs (c := .sys (.mkdir path mode)) h ?_ nofun
    exact fun m ↦ congrArg (fun out ↦ out.2.isDir m) he
  · have hfresh : t.isDir l = false := by simp only [Volume.isDir, hmade.fresh]
    obtain ⟨hbelow, hne⟩ := (hpath t h l hl).resolve_left (by simp [hfresh])
    have hnew (m : Loc) : (answer cwd (.mkdir path mode) t).2.isDir m = true →
        t.isDir m = true ∨ m = l := hmade.isDir_cases
    refine ⟨⟨fun cs hcs ↦ ?_, fun c ↦ ?_⟩, nofun, fun m hm hm' ↦ ?_⟩
    · exact hmade.onlyDirs.keepsDirs.isDir (h.path cs hcs)
    · cases hd : (answer cwd (.mkdir path mode) t).2.isDir (c :: tmpLoc cwd base) with
      | false => rfl
      | true =>
        rcases hnew _ hd with hold | hl
        · rw [h.flat c] at hold
          cases hold
        · exact absurd hl.symm (hne c)
    · rcases hnew m hm' with hold | rfl
      · rw [hm] at hold
        cases hold
      · exact hbelow

end Calls

section Heads

def Heads (path : Str) (s : Str) : Prop := s ≠ [] ∧ (s = path ∨ ∃ r, path = s ++ '/' :: r)

theorem Heads.trans {path s s' : Str} (h : Heads path s) (h' : Heads s s') : Heads path s' := by
  refine ⟨h'.1, ?_⟩
  rcases h'.2 with rfl | ⟨r', rfl⟩
  · exact h.2
  · rcases h.2 with rfl | ⟨r, rfl⟩
    · exact .inr ⟨r', rfl⟩
    · exact .inr ⟨r' ++ '/' :: r, by simp⟩

theorem heads_take {path : Str} {pos : ℕ} (h : rfind '/' path = some pos) (hne : path.take pos ≠ []) :
    Heads path (path.take pos) := by
  obtain ⟨s, -, he⟩ := rfind_split h
  exact ⟨hne, .inr ⟨s, he⟩⟩

theorem heads_self {path : Str} (h : path ≠ []) : Heads path path := ⟨h, .inl rfl⟩

end Heads

section Programs

variable {α : Type}

def Confined (p : Prog SysCall α) : Prop :=
  Keeps (answer cwd) (TmpFlat cwd base) (fun c t ↦ StaysInside cwd base (.sys c) t) p

variable {cwd base}

theorem confined_access {path : Str} {want : Perm} {next : Bool → Prog SysCall α}
    (h : ∀ ok, Confined cwd base (next ok)) :
    Confined cwd base (.call (.access path want) next) := by
  refine ⟨fun t ht ↦ ?_, h false, fun _ _ _ ↦ h true⟩
  exact stays_of_sameDirs (c := .sys (.access path want)) ht (fun _ ↦ rfl) nofun

theorem confined_makeLast {path : Str} (h : Allowed cwd base path) (mode : ℕ) :
    Confined cwd base (makeLast path mode) :=
  ⟨fun _ ↦ stays_mkdir h mode, trivial, fun _ _ _ ↦ trivial⟩

theorem confined_mkdirsWithin (mode n : ℕ) {path : Str} (hne : path ≠ [])
    (h : ∀ s, Heads path s → Allowed cwd base s) : Confined cwd base (mkdirsWithin mode n path) := by
  have hlast := confined_makeLast (h path (heads_self hne)) mode
  induction n generalizing path with
  | zero => exact hlast
  | succ n ih =>
    simp only [mkdirsWithin]
    split
    · exact hlast
    · rename_i pos hpos
      split
      · exact hlast
      · rename_i htake
        have hhead := heads_take hpos htake
        have hsub (s : Str) (hs : Heads (path.take pos) s) : Allowed cwd base s := h s (hhead.trans hs)
        refine confined_access fun ok ↦ ?_
        cases ok with
        | true => exact hlast
        | false =>
          refine (ih htake hsub (confined_makeLast (h _ hhead) mode)).bind fun r ↦ ?_
          split
          · trivial
          · exact hlast

theorem confined_mkdirs (mode : ℕ) {path : Str} (hne : path ≠ [])
    (h : ∀ s, Heads path s → Allowed cwd base s) : Confined cwd base (mkdirs path mode) :=
  confined_mkdirsWithin mode _ hne h

theorem allowed_nil : Allowed cwd base [] := by
  intro t _ l hl
  have hcomponents : (components []).rdropWhile (· = []) = [] := by decide
  simp [Volume.dirEntry, hcomponents, Volume.slot] at hl

theorem confined_ensureParent {dst : Str} (h : ∀ s, Heads dst s → Allowed cwd base s) :
    Confined cwd base (ensureParent dst) := by
  unfold ensureParent
  split
  · trivial
  · rename_i pos hpos
    refine confined_access fun ok ↦ ?_
    cases ok with
    | true => trivial
    | false =>
      refine Keeps.bind ?_ fun r ↦ trivial
      by_cases hne : dst.take pos = []
      · rw [hne]
        exact confined_makeLast allowed_nil _
      · exact confined_mkdirs _ hne fun s hs ↦ h s ((heads_take hpos hne).trans hs)

theorem confined_mvfile {src dst : Str} (h : ∀ s, Heads dst s → Allowed cwd base s)
    (hdst : StorePath base (cString dst)) : Confined cwd base (mvfile src dst) := by
  refine confined_access fun ok ↦ ?_
  cases ok with
  | false => trivial
  | true =>
    refine (confined_ensureParent h).bind fun r ↦ ?_
    split
    · trivial
    · refine ⟨fun t ht ↦ ?_, trivial, fun _ _ _ ↦ trivial⟩
      refine stays_of_sameDirs (c := .sys (.rename src dst)) ht (rename_sameDirs cwd src dst t) ?_
      rintro _ _ ⟨⟩
      exact hdst

end Programs

section Paths

variable {cwd base} {t : Volume Bytes}

theorem allowed_tmp {s : Str} (h : Heads (base ++ "/tmp/".toList) s) : Allowed cwd base s := by
  intro t ht l hl
  have hpath := ht.path
  rcases h.2 with rfl | ⟨r, hr⟩
  · exact .inl (hpath.isDir_dirEntry hl)
  · rw [hr] at hpath
    exact .inl ((hpath.head h.1).isDir_dirEntry hl)

theorem origin_base (r : Str) : origin cwd (base ++ '/' :: r) = origin cwd (base ++ ['/']) := by
  cases base <;> rfl

theorem tmpLoc_eq (hbase : nul ∉ base) : tmpLoc cwd base = "tmp".toList :: storeRoot cwd base := by
  have hcomponents : components "tmp/".toList = ["tmp".toList, []] := by decide
  rw [tmpLoc, show base ++ "/tmp/".toList = base ++ '/' :: "tmp/".toList from rfl,
    lexical_below hbase, hcomponents]
  rfl

theorem partition_ne_tmp (sig1 sig2 : UInt32) (fmt : Str) : partition sig1 sig2 fmt ≠ "tmp".toList := by
  intro h
  obtain ⟨c, hc, -⟩ := category_letter fmt
  have honly {d : Char} (hd : d.isDigit = false) (hmem : d ∈ "tmp".toList) : d = c := by
    rw [← h, partition, hc] at hmem
    simpa [notMem_decimal hd] using hmem
  exact absurd ((honly (by decide) (by decide)).trans (honly (by decide) (by decide)).symm)
    (show 'm' ≠ 'p' by decide)

variable {sig : UInt32 × UInt32} {fmt : Str}

theorem targetPath_eq : targetPath base sig fmt = base ++ '/' :: sigPath sig.1 sig.2 fmt := by
  simp [targetPath]

theorem properName_level (hslash : '/' ∉ cString (lower fmt)) :
    ∀ c ∈ components (sigPath sig.1 sig.2 fmt), ProperName c := by
  rw [sigPath_components_cString sig hslash]
  simp only [List.mem_cons, List.not_mem_nil, or_false]
  rintro c (rfl | rfl | rfl | rfl)
  · exact properName_partition _ _ _
  · exact properName_decimal _
  · exact properName_decimal _
  · exact properName_fileName _ _

theorem entry_of_heads (hbase : nul ∉ base) {rest s : Str} (h : Heads (base ++ '/' :: rest) s)
    {l : Loc} (hl : t.dirEntry cwd s = some l) :
    ∃ cs, cs <+: components base ++ components rest ∧
      l = cs.foldl descend (origin cwd (base ++ ['/'])) := by
  have horigin : origin cwd s = origin cwd (base ++ ['/']) := by
    rcases h.2 with rfl | ⟨r, hr⟩
    · exact origin_base _
    · rw [← origin_append cwd h.1, ← hr, origin_base]
  refine ⟨(components s).rdropWhile (· = []), ?_, ?_⟩
  · rw [← components_append hbase]
    refine (List.rdropWhile_prefix _ _).trans ?_
    rcases h.2 with rfl | ⟨r, hr⟩
    · exact List.prefix_rfl
    · rw [hr]
      exact components_initial s r
  · rw [← horigin]
    exact Volume.walk_foldl (Volume.slot_walk hl)

theorem TmpFlat.isDir_up (h : TmpFlat cwd base t) {cs : List Str} (hcs : cs <+: components base) :
    t.isDir (cs.foldl descend (origin cwd (base ++ ['/']))) = true := by
  rw [← origin_base "tmp/".toList]
  exact h.path cs (hcs.trans (components_initial base "tmp/".toList))

theorem allowed_target (hbase : nul ∉ base) (hslash : '/' ∉ cString (lower fmt)) {s : Str}
    (h : Heads (targetPath base sig fmt) s) : Allowed cwd base s := by
  intro t ht l hl
  rw [targetPath_eq] at h
  obtain ⟨cs, hcs, rfl⟩ := entry_of_heads hbase h hl
  rcases List.prefix_or_prefix_of_prefix hcs (List.prefix_append ..) with hup | ⟨ds, rfl⟩
  · exact .inl (ht.isDir_up hup)
  · rw [List.prefix_append_right_inj] at hcs
    have hproper (c : Str) (hc : c ∈ ds) : ProperName c := properName_level hslash c (hcs.mem hc)
    rw [List.foldl_append, foldl_descend hproper]
    cases ds with
    | nil => exact .inl (ht.isDir_up List.prefix_rfl)
    | cons c ds =>
      refine .inr ⟨⟨_, by simp, rfl⟩, fun d hd ↦ ?_⟩
      rw [tmpLoc_eq hbase] at hd
      have hrev : (c :: ds).reverse = [d, "tmp".toList] := List.append_cancel_right hd
      have hhead : c :: ds = ["tmp".toList, d] := List.reverse_injective hrev
      rw [sigPath_components_cString sig hslash, List.cons_prefix_cons] at hcs
      exact partition_ne_tmp _ _ _ (hcs.1.symm.trans (List.cons.inj hhead).1)

theorem openRead_dir {path : Str} (h : t.isDir (lexical cwd path) = true) :
    openRead cwd path t = none := by
  obtain ⟨p, hp⟩ := Volume.dir_of_isDir h
  unfold openRead
  cases hf : t.find cwd path with
  | none => rfl
  | some l =>
    rw [Volume.find_lexical hf, Option.bind_some, hp]

variable {r : Round}

theorem path_eq : r.path base = base ++ '/' :: ("tmp".toList ++
    '/' :: (randString r.draws 16 true true ++ '.' :: r.task.fileFormat)) := by
  simp [Round.path, tmpPath]

theorem nul_notMem_of_opened (ht : TmpFlat cwd base t)
    (h : (openRead cwd (r.path base) t).isSome = true) : nul ∉ base := by
  intro hnul
  have hne : base ≠ [] := List.ne_nil_of_mem hnul
  have hdir : t.isDir (lexical cwd (r.path base)) = true := by
    have hall := ht.path _ List.prefix_rfl
    rw [components, cString_append_of_mem hnul, origin_append cwd hne] at hall
    rw [path_eq, lexical, components, cString_append_of_mem hnul, origin_append cwd hne]
    exact hall
  rw [openRead_dir hdir] at h
  cases h

theorem components_path_of_slash (hbase : nul ∉ base) (h : '/' ∈ cString r.task.fileFormat) :
    ∃ name rest, ProperName name ∧
      components (r.path base) = components base ++ ["tmp".toList, name] ++ components rest := by
  obtain ⟨a, rest, hfmt, ha, hnul⟩ := split_of_mem_cString h
  have hrand {c : Char} (hc : c.isAlphanum = false) : c ∉ randString r.draws 16 true true :=
    notMem_randString _ _ _ _ hc
  have hnul' : nul ∉ randString r.draws 16 true true ++ '.' :: a := by
    simp [hrand (show nul.isAlphanum = false by decide), hnul, show nul ≠ '.' by decide]
  have hslash' : '/' ∉ randString r.draws 16 true true ++ '.' :: a := by
    simp [hrand (show '/'.isAlphanum = false by decide), ha]
  have hsplit : randString r.draws 16 true true ++ '.' :: (a ++ '/' :: rest) =
      (randString r.draws 16 true true ++ '.' :: a) ++ '/' :: rest := by simp
  refine ⟨_, rest, properName_randString r.draws 16 true true (by decide) ('.' :: a), ?_⟩
  rw [path_eq, hfmt, hsplit, components_append hbase, components_append (by decide),
    components_append hnul', components_name hslash' hnul',
    show components "tmp".toList = ["tmp".toList] by decide]
  simp

theorem slash_notMem_of_opened (ht : TmpFlat cwd base t)
    (h : (openRead cwd (r.path base) t).isSome = true) : '/' ∉ cString r.task.fileFormat := by
  have hbase := nul_notMem_of_opened ht h
  intro hslash
  obtain ⟨name, rest, hname, hcomponents⟩ := components_path_of_slash hbase hslash
  obtain ⟨b, hb⟩ := Option.isSome_iff_exists.mp h
  obtain ⟨l, hl, -⟩ := Option.bind_eq_some_iff.mp (content_of_openRead hb)
  have hwalk := Volume.walk_of_find hl
  obtain ⟨c, cs, hrest⟩ := List.exists_cons_of_ne_nil (components_ne_nil rest)
  rw [hcomponents, hrest] at hwalk
  have hdir := Volume.isDir_of_searchable (Volume.searchable_of_walk hwalk)
  have hplace : (components base ++ ["tmp".toList, name]).foldl descend (origin cwd (r.path base)) =
      name :: tmpLoc cwd base := by
    rw [List.foldl_append, path_eq, origin_base, tmpLoc_eq hbase]
    simp only [List.foldl_cons, List.foldl_nil, descend_proper hname,
      descend_proper (show ProperName "tmp".toList by decide)]
    rfl
  rw [hplace, ht.flat] at hdir
  cases hdir

theorem cString_lower (fmt : Str) : cString (lower fmt) = lower (cString fmt) := by
  have hnul (c : Char) : c.toLower = nul ↔ c = nul :=
    ⟨toLower_eq (by decide), fun h ↦ by rw [h]; decide⟩
  simp only [cString, lower, List.takeWhile_map]
  congr 2
  funext c
  simp [hnul]

theorem storePath_target (hbase : nul ∉ base) (hslash : '/' ∉ cString (lower fmt)) :
    StorePath base (cString (targetPath base sig fmt)) := by
  obtain ⟨letter, hcategory, hletter⟩ := category_letter (lower fmt)
  have hlevel (x : UInt32) : (x % 100).toNat ≤ 99 := by
    rw [UInt32.toNat_mod]
    exact Nat.le_of_lt_succ (Nat.mod_lt _ (by decide))
  refine ⟨letter, ((sig.1 ^^^ sig.2) % 3 + 1).toNat, (sig.2 % 100).toNat, (sig.2 / 100 % 100).toNat,
    sig.1, cString (lower fmt), hletter, ?_, hlevel _, hlevel _, hslash, ?_⟩
  · simp only [UInt32.toNat_add, UInt32.toNat_mod, UInt32.reduceToNat]
    omega
  · have hdec (n : ℕ) : nul ∉ decimal n := notMem_decimal (by decide) n
    have hpart : nul ∉ partition sig.1 sig.2 (lower fmt) :=
      notMem_partition (by decide) (by decide) _ _ _
    have hfront : nul ∉ base ++ '/' :: partition sig.1 sig.2 (lower fmt) ++
        '/' :: decimal (sig.2 % 100).toNat ++ '/' :: decimal (sig.2 / 100 % 100).toNat ++
        '/' :: decimal sig.1.toNat ++ ['.'] := by
      simp [hbase, hpart, hdec, show nul ≠ '/' by decide, show nul ≠ '.' by decide]
    have hcut := cString_append hfront (lower fmt)
    rw [targetPath_eq, sigPath_eq]
    simpa [fileName, partition, hcategory] using hcut

end Paths

section Rounds

variable {α ι Ctx : Type}

def Inside (p : Prog (FileCall Bytes) α) : Prop :=
  Keeps (fileAnswer cwd) (TmpFlat cwd base) (StaysInside cwd base) p

variable {cwd base}

theorem inside_mapCall {p : Prog SysCall α} (h : Confined cwd base p) :
    Inside cwd base (p.mapCall .sys) := by
  unfold Inside
  exact Keeps.mapCall (f := FileCall.sys) (fun _ ↦ rfl) (fun _ _ hc ↦ hc) h

theorem inside_call {c : FileCall Bytes} {next : Bool → Prog (FileCall Bytes) α}
    (hdirs : ∀ t, SameDirs t (fileAnswer cwd c t).2) (hc : ∀ src dst, c ≠ .sys (.rename src dst))
    (h : ∀ ok, Inside cwd base (next ok)) : Inside cwd base (.call c next) :=
  ⟨fun t ht ↦ stays_of_sameDirs ht (hdirs t) (fun src dst he ↦ absurd he (hc src dst)), h false,
    fun _ _ _ ↦ h true⟩

theorem inside_edits (writes : List (Loc × Bytes)) : Inside cwd base (edits writes) := by
  induction writes with
  | nil => trivial
  | cons w writes ih =>
    exact inside_call (fun t ↦ updateFile_sameDirs t _ _) nofun (fun _ ↦ ih)

theorem inside_signAndMove (r : Round) : Inside cwd base (signAndMove base r) := by
  refine ⟨fun t ht ↦ stays_of_sameDirs ht (fun _ ↦ rfl) nofun, trivial, fun t ht hok ↦ ?_⟩
  have hbase := nul_notMem_of_opened ht hok
  have hslash := slash_notMem_of_opened ht hok
  have hslash' : '/' ∉ cString (lower r.task.fileFormat) := by
    rw [cString_lower]
    exact notMem_lower (by decide) hslash
  simp only [Bool.true_eq_false, if_false]
  split
  · trivial
  · refine Keeps.bind (inside_mapCall (confined_mvfile (fun s hs ↦ ?_) ?_)) fun _ ↦ trivial
    · exact allowed_target hbase hslash' hs
    · exact storePath_target hbase hslash'

theorem inside_finish (r : Round) : Inside cwd base (finish base r) := by
  unfold finish
  split
  · trivial
  · exact inside_call (fun t ↦ remove_sameDirs cwd _ t) nofun (fun _ ↦ trivial)
  · exact inside_signAndMove r

theorem inside_ensureTmpDir (env : Setting Ctx) :
    Confined env.cwd env.basePath (ensureTmpDir env) := by
  refine confined_access fun ok ↦ ?_
  cases ok with
  | true => trivial
  | false =>
    refine Keeps.bind (confined_mkdirs _ ?_ fun s hs ↦ allowed_tmp hs) fun r ↦ trivial
    simp [tmpRealDir]

theorem inside_round (env : Setting Ctx) (r : Round) :
    Inside env.cwd env.basePath (round env r) := by
  refine (inside_mapCall (inside_ensureTmpDir env)).bind fun ready ↦ ?_
  split
  · trivial
  · refine inside_call (fun t ↦ openTrunc_sameDirs env.cwd _ _ _ t) nofun fun opened ↦ ?_
    split
    · trivial
    · refine Keeps.bind ?_ fun _ ↦ inside_finish r
      split
      · exact inside_edits r.writes
      · trivial

theorem inside_rounds (env : Setting Ctx) (rs : List Round) :
    Inside env.cwd env.basePath (rounds env rs) := by
  induction rs with
  | nil => trivial
  | cons r rs ih => exact (inside_round env r).bind fun _ ↦ ih

variable [DecidableEq ι]

/-- In every interleaving of any number of workers, whichever calls are refused
and whatever the formats are: a rename that succeeds leads to a path of the
store, and a directory that is made lies below the base path. -/
theorem publication_stays_inside (env : Setting Ctx) (t : Volume Bytes)
    (ht : TmpFlat env.cwd env.basePath t) (tasks : ι → List Round) (faults : List Bool)
    (schedule : List ι) (i : ι) :
    let cfg := interleave (faulty (fileAnswer env.cwd)) ⟨(faults, t), fun i ↦ rounds env (tasks i)⟩
      schedule
    (∀ src dst next, cfg.proc i = .call (.sys (.rename src dst)) next →
      (faulty (fileAnswer env.cwd) (.sys (.rename src dst)) cfg.state).1 = true →
      StorePath env.basePath (cString dst)) ∧
    ∀ l, cfg.state.2.isDir l = false →
      (turn (faulty (fileAnswer env.cwd)) cfg i).state.2.isDir l = true →
      Below env.cwd env.basePath l := by
  intro cfg
  obtain ⟨hflat, hkeeps⟩ := interleave_keeps ⟨(faults, t), fun i ↦ rounds env (tasks i)⟩ ht
    (fun i ↦ inside_rounds env (tasks i)) schedule i
  have hstays {c : FileCall Bytes} {next : Bool → Prog (FileCall Bytes) Unit}
      (hc : cfg.proc i = .call c next) : StaysInside env.cwd env.basePath c cfg.state.2 :=
    ((hc ▸ hkeeps).1 cfg.state.2 hflat).2
  refine ⟨fun src dst next hc hok ↦ ?_, fun l hl hl' ↦ ?_⟩
  · rcases faulty_cases (fileAnswer env.cwd) (.sys (.rename src dst)) cfg.state with
      ⟨hr, -⟩ | ⟨hr, -⟩
    · rw [hr] at hok
      cases hok
    · exact (hstays hc).rename src dst rfl (hr.symm.trans hok)
  · cases hc : cfg.proc i with
    | ret a =>
      rw [turn_ret hc, hl] at hl'
      cases hl'
    | call c next =>
      rw [turn_call hc] at hl'
      rcases faulty_cases (fileAnswer env.cwd) c cfg.state with ⟨-, he⟩ | ⟨-, he⟩
      · rw [he, hl] at hl'
        cases hl'
      · rw [he] at hl'
        exact (hstays hc).mkdir l hl hl'

end Rounds

section Sample

def sampleRound : Round := ⟨sampleTask, fun _ ↦ 0, true, [], some true, some (0, 0)⟩

theorem emptyStore_flat : TmpFlat [] "/s".toList (emptyStore : Volume Bytes) := by
  refine ⟨fun cs hcs ↦ ?_, fun c ↦ ?_⟩
  · have hall : ∀ cs ∈ (components "/s/tmp/".toList).inits, (emptyStore : Volume Bytes).isDir
        (cs.foldl descend (origin [] "/s/tmp/".toList)) = true := by
      decide +kernel
    exact hall cs ((List.mem_inits _ _).mpr hcs)
  · have hloc : tmpLoc [] "/s".toList = ["tmp".toList, "s".toList] := by decide
    have hdir {l : Loc} (hl : (emptyStore : Volume Bytes).isDir l = true) : l.length ≤ 2 := by
      rcases mkdir_isDir_cases hl with hl | hl
      · rcases mkdir_isDir_cases hl with hl | hl
        · by_cases hroot : l = []
          · simp [hroot]
          · simp [Volume.bare, Volume.isDir, hroot] at hl
        · rw [Volume.walk_foldl (Volume.slot_walk hl)]
          decide
      · rw [Volume.walk_foldl (Volume.slot_walk hl)]
        decide
    rw [hloc]
    cases hd : (emptyStore : Volume Bytes).isDir (c :: ["tmp".toList, "s".toList]) with
    | false => rfl
    | true => exact absurd (hdir hd) (by simp)

def pendingRename : Prog (FileCall Bytes) Unit → Option (Str × Str)
  | .call (.sys (.rename src dst)) _ => some (src, dst)
  | _ => none

def sampleRun : Config (FileCall Bytes) (List Bool × Volume Bytes) Unit Unit :=
  interleave (faulty (fileAnswer [])) ⟨([], emptyStore), fun _ ↦ rounds sampleSetting [sampleRound]⟩
    (List.replicate 11 ())

theorem sampleRun_pending : pendingRename (sampleRun.proc ()) =
    some ("/s/tmp/aaaaaaaaaaaaaaaa.mp3".toList, "/s/n1/0/0/0.mp3".toList) := by
  decide +kernel

theorem next_of_pending {p : Prog (FileCall Bytes) Unit} {src dst : Str}
    (h : pendingRename p = some (src, dst)) : ∃ next, p = .call (.sys (.rename src dst)) next := by
  unfold pendingRename at h
  split at h
  · cases h
    exact ⟨_, rfl⟩
  · cases h

theorem publication_stays_inside_instance :
    (∃ next, sampleRun.proc () = .call (.sys (.rename "/s/tmp/aaaaaaaaaaaaaaaa.mp3".toList
      "/s/n1/0/0/0.mp3".toList)) next) ∧ StorePath "/s".toList "/s/n1/0/0/0.mp3".toList := by
  obtain ⟨next, hnext⟩ := next_of_pending sampleRun_pending
  have hinside := publication_stays_inside sampleSetting emptyStore emptyStore_flat
    (fun _ ↦ [sampleRound]) [] (List.replicate 11 ()) ()
  exact ⟨⟨next, hnext⟩, hinside.1 _ _ next hnext (by decide +kernel)⟩

end Sample

end Calcsig.Server.Confinement
