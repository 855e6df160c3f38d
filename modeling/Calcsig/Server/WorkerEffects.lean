import Calcsig.Server.Confinement
import Calcsig.Server.SmallSteps

namespace Calcsig.Server.WorkerEffects

open Function Foundation.Text Foundation.FileTree Foundation.FileCalls Foundation.Programs
open Foundation.Interleavings Foundation.Inodes Utils.ContentSignature
open Utils.SigPath Utils.MoveFile Utils.RandString Store.Publishing Transfer Worker
open Confinement SmallSteps

section Places

variable (cwd : Loc) (base : Str)

def StoreLoc (l : Loc) : Prop :=
  ∃ sig fmt, '/' ∉ cString (lower fmt) ∧ l = lexical cwd (targetPath base sig fmt)

def TmpName (job : Job) : Prop :=
  ∃ draws, job.path = tmpPath base (randString draws 16 true true) job.task.fileFormat

def place (job : Job) : Loc := lexical cwd job.path

variable {cwd base} {job : Job} {l : Loc}

theorem slash_notMem_lower {fmt : Str} (h : '/' ∉ cString fmt) : '/' ∉ cString (lower fmt) := by
  rw [cString_lower]
  exact notMem_lower (by decide) h

theorem target_place (hbase : nul ∉ base) (sig : UInt32 × UInt32) {fmt : Str}
    (hslash : '/' ∉ cString (lower fmt)) :
    lexical cwd (targetPath base sig fmt) =
      fileName sig.1 (cString (lower fmt)) :: decimal (sig.2 / 100 % 100).toNat ::
        decimal (sig.2 % 100).toNat :: partition sig.1 sig.2 (lower fmt) :: storeRoot cwd base := by
  rw [targetPath_eq, lexical_below hbase, foldl_descend (properName_level hslash),
    sigPath_components_cString sig hslash]
  rfl

theorem StoreLoc.length (hbase : nul ∉ base) (h : StoreLoc cwd base l) :
    l.length = (storeRoot cwd base).length + 4 := by
  obtain ⟨sig, fmt, hslash, rfl⟩ := h
  rw [target_place hbase sig hslash]
  rfl

theorem place_length (hbase : nul ∉ base) (hjob : TmpName base job)
    (hslash : '/' ∉ cString job.task.fileFormat) :
    (place cwd job).length ≤ (storeRoot cwd base).length + 2 := by
  obtain ⟨draws, hpath⟩ := hjob
  have hrand {c : Char} (hc : c.isAlphanum = false) : c ∉ randString draws 16 true true :=
    notMem_randString _ _ _ _ hc
  have hfront : nul ∉ randString draws 16 true true ++ ['.'] := by
    simp [hrand (show nul.isAlphanum = false by decide), show nul ≠ '.' by decide]
  have hname : components (randString draws 16 true true ++ '.' :: job.task.fileFormat) =
      [randString draws 16 true true ++ ['.'] ++ cString job.task.fileFormat] := by
    rw [List.append_cons, components, cString_append hfront]
    exact List.splitOn_eq_singleton (by
      simp [hrand (show '/'.isAlphanum = false by decide), hslash])
  have hbelow : job.path = base ++ '/' ::
      ("tmp".toList ++ '/' :: (randString draws 16 true true ++ '.' :: job.task.fileFormat)) := by
    simp [hpath, tmpPath]
  rw [place, hbelow, lexical_below hbase, components_append (by decide), hname,
    show components "tmp".toList = ["tmp".toList] by decide]
  simp only [List.cons_append, List.nil_append, List.foldl_cons, List.foldl_nil]
  exact (descend_length _ _).trans (Nat.succ_le_succ (descend_length _ _))

theorem place_not_store (hbase : nul ∉ base) (hjob : TmpName base job)
    (hslash : '/' ∉ cString job.task.fileFormat) : ¬ StoreLoc cwd base (place cwd job) := by
  intro h
  have hlong := h.length hbase
  have hshort : (place cwd job).length ≤ (storeRoot cwd base).length + 2 :=
    place_length hbase hjob hslash
  omega

theorem slash_notMem_of_walk {t : Volume Bytes} (hbase : nul ∉ base) (ht : TmpFlat cwd base t)
    (hjob : TmpName base job)
    (hwalk : t.walk (origin cwd job.path) (components job.path) = some l) :
    '/' ∉ cString job.task.fileFormat := by
  intro hslash
  obtain ⟨draws, hpath⟩ := hjob
  let r : WorkerCalls.Round := ⟨job.task, draws, true, [], none, none⟩
  obtain ⟨name, rest, hname, hcomponents⟩ := components_path_of_slash (r := r) hbase hslash
  obtain ⟨c, cs, hrest⟩ := List.exists_cons_of_ne_nil (components_ne_nil rest)
  rw [hpath, show tmpPath base _ _ = r.path base from rfl, hcomponents, hrest] at hwalk
  have hdir := Volume.isDir_of_searchable (Volume.searchable_of_walk hwalk)
  have hplace : (components base ++ ["tmp".toList, name]).foldl descend (origin cwd (r.path base)) =
      name :: tmpLoc cwd base := by
    rw [List.foldl_append, path_eq, origin_base, tmpLoc_eq hbase]
    simp only [List.foldl_cons, List.foldl_nil, descend_proper hname,
      descend_proper (show ProperName "tmp".toList by decide)]
    rfl
  rw [hplace, ht.flat] at hdir
  cases hdir

end Places

section Moves

/-- The program renames at most once and as its last call, and it ends with 0
only if that succeeds. -/
def Publishes (src dst : Str) : Prog SysCall ℤ → Prop
  | .ret r => r ≠ 0
  | .call c next =>
    (c = .rename src dst ∧ next true = .ret 0 ∧ ∃ r, r ≠ 0 ∧ next false = .ret r) ∨
      (¬ c.IsRename ∧ ∀ ok, Publishes src dst (next ok))

variable {src dst : Str}

theorem Publishes.bind {α : Type} {p : Prog SysCall α} {f : α → Prog SysCall ℤ}
    (hp : p.Only (fun c ↦ ¬ c.IsRename)) (hf : ∀ a, Publishes src dst (f a)) :
    Publishes src dst (p.bind f) := by
  induction p with
  | ret a => exact hf a
  | call c next ih => exact .inr ⟨hp.1, fun ok ↦ ih ok (hp.2 ok)⟩

theorem publishes_mvfile (src dst : Str) : Publishes src dst (mvfile src dst) := by
  refine .inr ⟨id, fun ok ↦ ?_⟩
  cases ok with
  | false => exact (by decide : (-1 : ℤ) ≠ 0)
  | true =>
    refine .bind (ensureParent_only dst) fun r ↦ ?_
    split
    · exact (by decide : (-1 : ℤ) ≠ 0)
    · exact .inl ⟨rfl, rfl, -1, by decide, rfl⟩

end Moves

variable {Ctx : Type} (env : Setting Ctx)

/-- Every file in the store lies where its own signature leads. -/
def Sound (d : Disk UInt8) : Prop :=
  ∀ ⦃l p i⦄, StoreLoc env.cwd env.basePath l → d.names.node l = some (.file p i) →
    ∃ fmt, '/' ∉ cString (lower fmt) ∧
      l = lexical env.cwd (targetPath env.basePath (signature env.md5 (d.data i)) fmt)

/-- What a worker with a file at `own` does to the disk: elsewhere files come and
change in the store only, where they stay and lie right. -/
structure Effect (own : Loc) (d d' : Disk UInt8) : Prop where
  dirs : KeepsDirs d.names d'.names
  flat : TmpFlat env.cwd env.basePath d.view → TmpFlat env.cwd env.basePath d'.view
  others : ∀ {l p i}, l ≠ own → ¬ StoreLoc env.cwd env.basePath l →
    (d'.names.node l = some (.file p i) ↔ d.names.node l = some (.file p i))
  data : ∀ {l p i}, l ≠ own → d.names.node l = some (.file p i) → d'.data i = d.data i
  kept : ∀ {l}, StoreLoc env.cwd env.basePath l → d.names.isFile l = true → d'.names.isFile l = true
  sound : Sound env d → Sound env d'

/-- The open file is the one at the job's place. -/
structure Holds (job : Job) (fd : Fd) (d : Disk UInt8) : Prop where
  slash : '/' ∉ cString job.task.fileFormat
  node : ∃ p, d.names.node (place env.cwd job) = some (.file p fd.ino)

/-- What is left of the move takes the file at the job's place, which has the
given signature, to where that leads. -/
structure Moving (job : Job) (sig : UInt32 × UInt32) (p : Prog SysCall ℤ) (d : Disk UInt8) : Prop where
  slash : '/' ∉ cString job.task.fileFormat
  signed : ∀ {q i}, d.names.node (place env.cwd job) = some (.file q i) →
    signature env.md5 (d.data i) = sig
  confined : Confined env.cwd env.basePath p
  publishes : Publishes job.path (targetPath env.basePath sig job.task.fileFormat) p

/-- What is known of the disk in each phase of a worker. -/
def Assert (d : Disk UInt8) : Phase Ctx → Prop
  | .idle | .raised => True
  | .tmpDir job c next => TmpName env.basePath job ∧
      (Prog.call c next).Only (fun c ↦ ¬ c.IsRename) ∧
      Confined env.cwd env.basePath (.call c next)
  | .opening job | .removing job | .sigOpening job _ => TmpName env.basePath job
  | .starting job fd => TmpName env.basePath job ∧ ∀ f, fd = some f → Holds env job f d
  | .transferring job info => TmpName env.basePath job ∧ ∀ f, info.fd = some f → Holds env job f d
  | .sigReading job _ fd ctx => TmpName env.basePath job ∧ Holds env job fd d ∧
      ctx = env.md5.update env.md5.init ((d.data fd.ino).take fd.pos)
  | .moving job _ sig c next => TmpName env.basePath job ∧ Moving env job sig (.call c next) d
  | .posting job _ sig => '/' ∉ cString job.task.fileFormat ∧
      ∃ b, d.view.content env.cwd (targetPath env.basePath sig job.task.fileFormat) = some b

section Effects

variable {env} {own : Loc} {d d' : Disk UInt8} {job : Job}

theorem Effect.refl (own : Loc) (d : Disk UInt8) : Effect env own d d :=
  ⟨.refl _, id, fun _ _ ↦ Iff.rfl, fun _ _ ↦ rfl, fun _ h ↦ h, id⟩

theorem Holds.stable (hbase : nul ∉ env.basePath) (hjob : TmpName env.basePath job) {fd : Fd}
    (h : Holds env job fd d) (he : Effect env own d d') (hne : place env.cwd job ≠ own) :
    Holds env job fd d' ∧ d'.data fd.ino = d.data fd.ino := by
  obtain ⟨p, hp⟩ := h.node
  exact ⟨⟨h.slash, p, (he.others hne (place_not_store hbase hjob h.slash)).mpr hp⟩, he.data hne hp⟩

theorem content_stable (he : Effect env own d d') {sig : UInt32 × UInt32} {fmt : Str}
    (hslash : '/' ∉ cString (lower fmt))
    (h : ∃ b, d.view.content env.cwd (targetPath env.basePath sig fmt) = some b) :
    ∃ b, d'.view.content env.cwd (targetPath env.basePath sig fmt) = some b := by
  rw [Disk.view_content_iff] at h ⊢
  exact ⟨he.dirs.find h.1, he.kept ⟨sig, fmt, hslash, rfl⟩ h.2⟩

theorem Moving.stable (hbase : nul ∉ env.basePath) (hjob : TmpName env.basePath job)
    {sig : UInt32 × UInt32} {p : Prog SysCall ℤ} (h : Moving env job sig p d)
    (he : Effect env own d d') (hne : place env.cwd job ≠ own) : Moving env job sig p d' := by
  refine ⟨h.slash, fun hn ↦ ?_, h.confined, h.publishes⟩
  have hold := (he.others hne (place_not_store hbase hjob h.slash)).mp hn
  rw [he.data hne hold]
  exact h.signed hold

theorem Assert.stable (hbase : nul ∉ env.basePath) {ph : Phase Ctx} (h : Assert env d ph)
    (he : Effect env own d d') (hne : ∀ job, ph.job = some job → place env.cwd job ≠ own) :
    Assert env d' ph := by
  cases ph with
  | idle | raised => trivial
  | tmpDir job c next => exact h
  | opening job | removing job | sigOpening job length => exact h
  | starting job fd =>
    exact ⟨h.1, fun f hf ↦ ((h.2 f hf).stable hbase h.1 he (hne job rfl)).1⟩
  | transferring job info =>
    exact ⟨h.1, fun f hf ↦ ((h.2 f hf).stable hbase h.1 he (hne job rfl)).1⟩
  | sigReading job length fd ctx =>
    obtain ⟨hjob, hholds, hctx⟩ := h
    obtain ⟨hholds', hdata⟩ := hholds.stable hbase hjob he (hne job rfl)
    exact ⟨hjob, hholds', by rw [hdata, hctx]⟩
  | moving job length sig c next => exact ⟨h.1, h.2.stable hbase h.1 he (hne job rfl)⟩
  | posting job length sig => exact ⟨h.1, content_stable he (slash_notMem_lower h.1) h.2⟩

theorem effect_of_files (hdirs : KeepsDirs d.names d'.names)
    (hflat : TmpFlat env.cwd env.basePath d.view → TmpFlat env.cwd env.basePath d'.view)
    (hfiles : ∀ {l p i}, d'.names.node l = some (.file p i) ↔ d.names.node l = some (.file p i))
    (hdata : d'.data = d.data) (own : Loc) : Effect env own d d' := by
  refine ⟨hdirs, hflat, fun _ _ ↦ hfiles, fun _ _ ↦ by rw [hdata], fun _ hfile ↦ ?_,
    fun hs l p i hl hn ↦ ?_⟩
  · obtain ⟨p, i, hn⟩ := isFile_iff.mp hfile
    exact isFile_iff.mpr ⟨p, i, hfiles.mpr hn⟩
  · rw [hdata]
    exact hs hl (hfiles.mp hn)

theorem effect_own (hown : ¬ StoreLoc env.cwd env.basePath own)
    (hdirs : KeepsDirs d.names d'.names) (hsame : SameDirs d.view d'.view)
    (hframe : ∀ m, m ≠ own → d'.names.node m = d.names.node m)
    (hdata : ∀ {l p i}, l ≠ own → d.names.node l = some (.file p i) → d'.data i = d.data i) :
    Effect env own d d' := by
  have hne {l : Loc} (hl : StoreLoc env.cwd env.basePath l) : l ≠ own := fun h ↦ hown (h ▸ hl)
  refine ⟨hdirs, fun ht ↦ ht.of_sameDirs hsame, fun hl _ ↦ by rw [hframe _ hl], hdata,
    fun hl hfile ↦ ?_, fun hs l p i hl hn ↦ ?_⟩
  · obtain ⟨p, i, hn⟩ := isFile_iff.mp hfile
    exact isFile_iff.mpr ⟨p, i, (hframe _ (hne hl)).trans hn⟩
  · rw [hframe l (hne hl)] at hn
    rw [hdata (hne hl) hn]
    exact hs hl hn

theorem confined_next {α : Type} {c : SysCall} {next : Bool → Prog SysCall α}
    (h : Confined env.cwd env.basePath (.call c next)) (m : Moment)
    (hflat : TmpFlat env.cwd env.basePath d.view) :
    TmpFlat env.cwd env.basePath (sysCall env m c d).2.view ∧
      Confined env.cwd env.basePath (next (sysCall env m c d).1) := by
  unfold sysCall
  split
  · exact ⟨hflat, h.2.1⟩
  · have hview := d.view_sys env.cwd c
    have hkept := (h.1 d.view hflat).1
    rw [hview] at hkept
    refine ⟨hkept, ?_⟩
    cases hok : (d.sys env.cwd c).1 with
    | false => exact h.2.1
    | true => exact h.2.2 d.view hflat (by rw [hview, hok])

theorem sysCall_effect {α : Type} {c : SysCall} {next : Bool → Prog SysCall α}
    (h : Confined env.cwd env.basePath (.call c next)) (hc : ¬ c.IsRename) (m : Moment)
    (own : Loc) : Effect env own d (sysCall env m c d).2 := by
  have hflat := fun ht ↦ (confined_next (d := d) h m ht).1
  unfold sysCall at hflat ⊢
  split
  · exact .refl own d
  · rename_i hr
    rw [if_neg hr] at hflat
    have honly := answer_onlyDirs env.cwd hc d.names
    exact effect_of_files honly.keepsDirs hflat ⟨file_of_onlyDirs honly, honly.keeps⟩ rfl own

section Own

variable (hbase : nul ∉ env.basePath) (hflat : TmpFlat env.cwd env.basePath d.view)
  (hjob : TmpName env.basePath job)

include hbase hflat hjob

theorem slash_of_find {l : Loc} (h : d.names.find env.cwd job.path = some l) :
    '/' ∉ cString job.task.fileFormat :=
  slash_notMem_of_walk hbase hflat hjob (l := l) (by
    rw [Disk.view, mapVolume_walk]
    exact Volume.walk_of_find h)

theorem openTrunc_effect :
    Effect env (place env.cwd job) d (d.openTrunc env.cwd job.path 0o644).2 ∧
      ∀ fd, (d.openTrunc env.cwd job.path 0o644).1 = some fd →
        Holds env job fd (d.openTrunc env.cwd job.path 0o644).2 := by
  rcases Disk.openTrunc_cases env.cwd job.path 0o644 d with he | ⟨p, i, hentry, hi, hopened⟩
  · rw [he]
    exact ⟨.refl _ d, fun _ hfd ↦ (by cases hfd)⟩
  · have hslash := slash_of_find hbase hflat hjob (Volume.entry_find hentry)
    refine ⟨effect_own (place_not_store hbase hjob hslash) (fun m q hm ↦ ?_) ?_ hopened.frame
      fun {l p j} hl hn ↦ ?_, fun fd hfd ↦ ?_⟩
    · rw [hopened.frame m fun h ↦ hopened.before q (h ▸ hm), hm]
    · have hsame := openTrunc_sameDirs env.cwd job.path 0o644 [] d.view
      rwa [d.view_openTrunc] at hsame
    · have hj : j ≠ i := fun h ↦ hopened.apart l p hl (h ▸ hn)
      rw [hopened.empty, update_of_ne hj]
    · obtain rfl : _ = fd := Option.some.inj (hi.symm.trans hfd)
      exact ⟨hslash, p, hopened.node⟩

omit hflat in
theorem write_effect {fd : Fd} (h : Holds env job fd d) (b : Bytes) :
    Effect env (place env.cwd job) d (d.write 0 fd b).2 ∧
      Holds env job (d.write 0 fd b).1 (d.write 0 fd b).2 := by
  obtain ⟨p, hp⟩ := h.node
  refine ⟨effect_own (place_not_store hbase hjob h.slash) (.refl _) (fun l ↦ ?_) (fun _ _ ↦ rfl)
    fun {l q i} hl hn ↦ ?_, h.slash, p, hp⟩
  · simp [Disk.view, Disk.write]
  · have hi : i ≠ fd.ino := by
      rintro rfl
      exact hl (d.linked.single hn hp)
    exact update_of_ne hi _ _

theorem remove_effect : Effect env (place env.cwd job) d (d.remove env.cwd job.path).2 := by
  rcases remove_node env.cwd job.path d.names with he | ⟨l, hentry, hfile, hgone, hframe⟩
  · have hsame : (d.remove env.cwd job.path).2 = d := by simp only [Disk.remove, he]
    rw [hsame]
    exact .refl _ d
  · obtain rfl := Volume.entry_lexical hentry
    have hslash := slash_of_find hbase hflat hjob (Volume.entry_find hentry)
    refine effect_own (place_not_store hbase hjob hslash) (fun m q hm ↦ ?_) ?_ hframe fun _ _ ↦ rfl
    · have hml : m ≠ lexical env.cwd job.path := by
        rintro rfl
        obtain ⟨p, i, hp⟩ := isFile_iff.mp hfile
        rw [hp] at hm
        cases hm
      exact (hframe m hml).trans hm
    · have hsame := remove_sameDirs env.cwd job.path d.view
      rwa [d.view_remove] at hsame

omit hbase hflat hjob in
theorem sysCall_rename_cases (env : Setting Ctx) (d : Disk UInt8) (m : Moment) (src dst : Str) :
    sysCall env m (.rename src dst) d = (false, d) ∨
      (sysCall env m (.rename src dst) d).1 = true ∧
        d.names.entry env.cwd dst = some (lexical env.cwd dst) ∧
        Moved d.names (sysCall env m (.rename src dst) d).2.names (lexical env.cwd src)
          (lexical env.cwd dst) ∧
        (sysCall env m (.rename src dst) d).2.data = d.data := by
  unfold sysCall
  split
  · exact .inl rfl
  · rcases rename_cases env.cwd src dst d.names with he | ⟨s, t, hs, ht, hok, hmoved⟩
    · exact .inl (by simp only [Disk.sys, answer, he])
    · obtain rfl := Volume.entry_lexical hs
      obtain rfl := Volume.entry_lexical ht
      exact .inr ⟨hok, ht, hmoved, rfl⟩

omit hflat in
theorem rename_effect {sig : UInt32 × UInt32} {next : Bool → Prog SysCall ℤ}
    (h : Moving env job sig
      (.call (.rename job.path (targetPath env.basePath sig job.task.fileFormat)) next) d)
    (htrue : next true = .ret 0) (hfalse : ∃ r, r ≠ 0 ∧ next false = .ret r) (m : Moment)
    (length : ℕ) :
    let out := sysCall env m (.rename job.path (targetPath env.basePath sig job.task.fileFormat)) d
    Effect env (place env.cwd job) d out.2 ∧
      Assert env out.2 (.afterMove job length sig (next out.1)) := by
  have hflat := fun ht ↦ (confined_next (d := d) h.confined m ht).1
  rcases sysCall_rename_cases env d m job.path
    (targetPath env.basePath sig job.task.fileFormat) with he | ⟨hok, hentry, hmoved, hdata⟩
  · obtain ⟨r, hr, hnext⟩ := hfalse
    simp only [he, hnext, Phase.afterMove, if_pos hr]
    exact ⟨.refl _ d, trivial⟩
  · have hstore : StoreLoc env.cwd env.basePath
        (lexical env.cwd (targetPath env.basePath sig job.task.fileFormat)) :=
      ⟨sig, _, slash_notMem_lower h.slash, rfl⟩
    have hown : ¬ StoreLoc env.cwd env.basePath (place env.cwd job) :=
      place_not_store hbase hjob h.slash
    have hne {l : Loc} (hl : StoreLoc env.cwd env.basePath l) : l ≠ place env.cwd job :=
      fun he ↦ hown (he ▸ hl)
    obtain ⟨p, i, hfile⟩ := isFile_iff.mp hmoved.isFile
    refine ⟨⟨hmoved.keepsDirs, hflat, fun hl hns ↦ ?_, fun _ _ ↦ by rw [hdata], fun {l} hl hf ↦ ?_,
      fun hs l q j hl hn ↦ ?_⟩, ?_⟩
    · rw [hmoved.frame _ hl fun he ↦ hns (he ▸ hstore)]
    · by_cases hld : l = lexical env.cwd (targetPath env.basePath sig job.task.fileFormat)
      · rw [hld]
        exact isFile_iff.mpr ⟨p, i, hmoved.arrives.trans hfile⟩
      · obtain ⟨q, j, hn⟩ := isFile_iff.mp hf
        exact isFile_iff.mpr ⟨q, j, (hmoved.frame l (hne hl) hld).trans hn⟩
    · rw [hdata]
      rcases file_of_moved hmoved hn with ⟨rfl, hold⟩ | ⟨-, -, hold⟩
      · rw [h.signed hold]
        exact ⟨_, slash_notMem_lower h.slash, rfl⟩
      · exact hs hl hold
    · rw [hok, htrue]
      refine ⟨h.slash, Disk.view_content_iff.mpr ⟨?_, ?_⟩⟩
      · exact Volume.entry_find (hmoved.keepsDirs.slot hentry)
      · exact isFile_iff.mpr ⟨p, i, hmoved.arrives.trans hfile⟩

end Own

theorem assert_afterTmpDir {p : Prog SysCall Bool} (hjob : TmpName env.basePath job)
    (honly : p.Only (fun c ↦ ¬ c.IsRename)) (hp : Confined env.cwd env.basePath p) :
    Assert env d (.afterTmpDir job p) := by
  cases p with
  | call c next => exact ⟨hjob, honly, hp⟩
  | ret ready =>
    cases ready with
    | true => exact hjob
    | false => trivial

theorem assert_afterMove {sig : UInt32 × UInt32} {p : Prog SysCall ℤ} (hjob : TmpName env.basePath job)
    (h : Moving env job sig p d) (length : ℕ) : Assert env d (.afterMove job length sig p) := by
  cases p with
  | call c next => exact ⟨hjob, h⟩
  | ret r =>
    have hr : r ≠ 0 := h.publishes
    rw [Phase.afterMove, if_pos hr]
    trivial

theorem moving_of_read (hbase : nul ∉ env.basePath) {fd : Fd} {ctx : Ctx} (h : Holds env job fd d)
    (hctx : ctx = env.md5.update env.md5.init ((d.data fd.ino).take fd.pos)) {n : ℕ}
    (hempty : d.read fd (n + 1) = []) :
    Moving env job (signatureOf (env.md5.final ctx))
      (mvfile job.path (targetPath env.basePath (signatureOf (env.md5.final ctx))
        job.task.fileFormat)) d := by
  have hslash := slash_notMem_lower h.slash
  have hread : (d.data fd.ino).drop fd.pos = [] := by
    cases hd : (d.data fd.ino).drop fd.pos with
    | nil => rfl
    | cons b rest => simp [Disk.read, hd] at hempty
  refine ⟨h.slash, fun {q i} hn ↦ ?_, confined_mvfile (fun s hs ↦ allowed_target hbase hslash hs)
    (storePath_target hbase hslash), publishes_mvfile _ _⟩
  obtain ⟨p, hp⟩ := h.node
  obtain ⟨-, rfl⟩ : p = q ∧ fd.ino = i := by
    rw [hp] at hn
    simpa using hn
  rw [hctx, List.take_of_length_le (List.drop_eq_nil_iff.mp hread), signature]

/-- One step of a worker: it does to the disk what the others put up with, and
what is known in its phase is known in the next one. -/
theorem work_spec (hbase : nul ∉ env.basePath) (hflat : TmpFlat env.cwd env.basePath d.view)
    {ph : Phase Ctx} (h : Assert env d ph) (m : Moment)
    (hown : ∀ job, ph.job = some job → own = place env.cwd job) :
    Effect env own d (work env m ph d).2 ∧ Assert env (work env m ph d).2 (work env m ph d).1 := by
  cases ph with
  | idle | raised => exact ⟨.refl _ d, trivial⟩
  | tmpDir job c next =>
    obtain ⟨hjob, honly, hp⟩ := h
    obtain ⟨-, hnext⟩ := confined_next hp m hflat
    exact ⟨sysCall_effect hp honly.1 m own, assert_afterTmpDir hjob (honly.2 _) hnext⟩
  | opening job =>
    obtain rfl := hown job rfl
    obtain ⟨heffect, hholds⟩ := openTrunc_effect hbase hflat h
    simp only [work]
    split
    · exact ⟨.refl _ d, h, fun _ hfd ↦ (by cases hfd)⟩
    · exact ⟨heffect, h, hholds⟩
  | starting job fd =>
    simp only [work]
    split
    · exact ⟨.refl _ d, h⟩
    · exact ⟨.refl _ d, trivial⟩
  | transferring job info =>
    obtain rfl := hown job rfl
    simp only [work]
    split
    · split
      · exact ⟨.refl _ d, trivial⟩
      · exact ⟨.refl _ d, h⟩
    · unfold SmallSteps.dataReader
      cases hfd : info.fd with
      | none => exact ⟨.refl _ d, h.1, fun _ hfd ↦ (by cases hfd)⟩
      | some fd =>
        obtain ⟨heffect, hholds⟩ := write_effect hbase h.1 (h.2 fd hfd) (written _ _)
        exact ⟨heffect, h.1, fun f hf ↦ Option.some.inj hf ▸ hholds⟩
    · refine ⟨.refl _ d, ?_⟩
      split
      · exact h.1
      · exact h.1
  | removing job =>
    obtain rfl := hown job rfl
    simp only [work]
    split
    · exact ⟨.refl _ d, trivial⟩
    · exact ⟨remove_effect hbase hflat h, trivial⟩
  | sigOpening job length =>
    refine ⟨.refl _ d, ?_⟩
    simp only [work]
    split
    · trivial
    · rename_i fd hfd
      split at hfd
      · cases hfd
      · obtain ⟨hpos, hfind, p, hp⟩ := Disk.openRead_file hfd
        refine ⟨h, ⟨slash_of_find hbase hflat h hfind, p, hp⟩, ?_⟩
        rw [hpos, List.take_zero, env.md5.update_nil]
  | sigReading job length fd ctx =>
    obtain ⟨hjob, hholds, hctx⟩ := h
    refine ⟨.refl _ d, ?_⟩
    simp only [work]
    split
    · trivial
    · split
      · rename_i hempty
        have hsize : min bufSize (m.count + 1) = min (bufSize - 1) m.count + 1 := by
          simp only [bufSize]
          omega
        rw [hsize] at hempty
        exact assert_afterMove hjob (moving_of_read hbase hholds hctx hempty) length
      · refine ⟨hjob, ⟨hholds.slash, hholds.node⟩, ?_⟩
        have htake : (d.read fd (min bufSize (m.count + 1)) ++
            ((d.data fd.ino).drop fd.pos).drop (min bufSize (m.count + 1))).take
              (d.read fd (min bufSize (m.count + 1))).length =
            d.read fd (min bufSize (m.count + 1)) := List.take_left
        rw [Disk.read, List.take_append_drop] at htake
        rw [hctx, ← env.md5.update_append, Disk.read, List.take_add, htake]
  | moving job length sig c next =>
    obtain rfl := hown job rfl
    obtain ⟨hjob, hmoving⟩ := h
    rcases hmoving.publishes with ⟨rfl, htrue, hfalse⟩ | ⟨hc, hnext⟩
    · exact rename_effect hbase hjob hmoving htrue hfalse m length
    · obtain ⟨-, hconfined⟩ := confined_next hmoving.confined m hflat
      have hsame := hmoving.stable hbase hjob
        (sysCall_effect hmoving.confined hc m ([] :: place env.cwd job)) (by simp)
      exact ⟨sysCall_effect hmoving.confined hc m _,
        assert_afterMove hjob ⟨hmoving.slash, hsame.signed, hconfined, hnext _⟩ length⟩
  | posting job length sig =>
    refine ⟨.refl _ d, ?_⟩
    simp only [work]
    split <;> trivial

theorem residues_of_partition {sig sig' : UInt32 × UInt32} {fmt fmt' : Str}
    (h : partition sig.1 sig.2 fmt = partition sig'.1 sig'.2 fmt') :
    (sig.1 ^^^ sig.2) % 3 = (sig'.1 ^^^ sig'.2) % 3 := by
  obtain ⟨c, hc, -⟩ := category_letter fmt
  obtain ⟨c', hc', -⟩ := category_letter fmt'
  rw [partition, partition, hc, hc'] at h
  refine (partition_eq_iff _ _ _ _ fmt).mp ?_
  rw [partition, partition, hc]
  exact congrArg (c :: ·) (List.cons.inj h).2

theorem residues_of_sound (hbase : nul ∉ env.basePath) {d : Disk UInt8} (h : Sound env d)
    {sig : UInt32 × UInt32} {fmt : Str} {b : Bytes} (hslash : '/' ∉ cString (lower fmt))
    (hb : d.view.content env.cwd (targetPath env.basePath sig fmt) = some b) :
    SameResidues sig.1 sig.2 (signature env.md5 b).1 (signature env.md5 b).2 := by
  have hfile := Volume.fileAt_of_content hb
  rw [Disk.view, mapVolume_fileAt] at hfile
  obtain ⟨i, hi, rfl⟩ := Option.map_eq_some_iff.mp hfile
  obtain ⟨p, hp⟩ : ∃ p, d.names.node (lexical env.cwd (targetPath env.basePath sig fmt)) =
      some (.file p i) := by
    unfold Volume.fileAt at hi
    split at hi
    · rename_i p _ hn
      exact ⟨p, by rw [hn, Option.some.inj hi]⟩
    · cases hi
  obtain ⟨fmt', hslash', hplace⟩ := h ⟨sig, fmt, hslash, rfl⟩ hp
  rw [target_place hbase _ hslash, target_place hbase _ hslash'] at hplace
  simp only [List.cons.injEq, and_true] at hplace
  obtain ⟨hname, h2, h1, hpart⟩ := hplace
  exact ⟨((fileName_eq_iff _ _ _ _).mp hname).1, (levels_eq_iff _ _).mp ⟨h1, h2⟩,
    residues_of_partition hpart⟩

end Effects

end Calcsig.Server.WorkerEffects
