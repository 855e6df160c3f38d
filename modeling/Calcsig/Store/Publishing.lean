import Calcsig.Utils.SigPath
import Calcsig.Utils.MoveFile

namespace Calcsig.Store.Publishing

open Foundation.Text Foundation.FileTree Foundation.FileCalls Foundation.Programs
open Utils.SigPath Utils.MoveFile

variable {β : Type}

/-- A downloaded file on its way into the store: the random part of its
temporary name, its contents, its format, and the system calls that will be
refused while it is moved. -/
structure Publication (β : Type) where
  name : Str
  data : β
  fmt : Str
  faults : List Bool

def tmpPath (base name fmt : Str) : Str := base ++ "/tmp/".toList ++ name ++ ".".toList ++ fmt

def targetPath (base : Str) (sig : UInt32 × UInt32) (fmt : Str) : Str :=
  base ++ "/".toList ++ sigPath sig.1 sig.2 fmt

def Publication.source (base : Str) (p : Publication β) : Str := tmpPath base p.name p.fmt

variable (signature : β → UInt32 × UInt32) (cwd : Loc) (base : Str)

def Publication.target (p : Publication β) : Str := targetPath base (signature p.data) p.fmt

def stage (t : Volume β) (p : Publication β) : Volume β :=
  match t.entry cwd (p.source base) with
  | some s => storeFile t s (Perm.ofMode 0o644) p.data
  | none => t

def publish (t : Volume β) (p : Publication β) : ℤ × Volume β :=
  let out := (mvfile (p.source base) (p.target signature base)).exec (faulty (answer cwd))
    (p.faults, stage cwd base t p)
  (out.1, out.2.2)

def publishAll (t : Volume β) (ps : List (Publication β)) : Volume β :=
  ps.foldl (fun t p ↦ (publish signature cwd base t p).2) t

def Publication.Agrees (p q : Publication β) : Prop :=
  SameResidues (signature p.data).1 (signature p.data).2 (signature q.data).1 (signature q.data).2 ∧
    lower p.fmt = lower q.fmt

structure Publication.Plain (p : Publication β) : Prop where
  name_slash : '/' ∉ p.name
  name_nul : nul ∉ p.name
  fmt_slash : '/' ∉ p.fmt
  fmt_nul : nul ∉ p.fmt

theorem target_eq_iff (p q : Publication β) :
    p.target signature base = q.target signature base ↔ p.Agrees signature q := by
  simp only [Publication.target, targetPath, List.append_cancel_left_eq, sigPath_inj_iff,
    Publication.Agrees]

section Plain

variable {signature cwd base}

theorem toLower_eq {c d : Char} (hd : d.isLower = false) (h : c.toLower = d) : c = d := by
  unfold Char.toLower at h
  split at h
  · rename_i hc
    subst h
    change (decide (_ ≥ 'a'.val) && decide (_ ≤ 'z'.val)) = false at hd
    simp only [ge_iff_le, Bool.and_eq_false_imp, decide_eq_true_eq, decide_eq_false_iff_not,
      UInt32.le_iff_toNat_le, UInt32.toNat_add] at hd hc
    simp at hd hc
    omega
  · exact h

theorem notMem_lower {c : Char} (hc : c.isLower = false) {fmt : Str} (h : c ∉ fmt) : c ∉ lower fmt := by
  intro hm
  obtain ⟨d, hd, he⟩ := List.mem_map.mp hm
  exact h (toLower_eq hc he ▸ hd)

def storeRoot (cwd : Loc) (base : Str) : Loc :=
  (components base).foldl descend (origin cwd (base ++ ['/']))

theorem lexical_below (hbase : nul ∉ base) (rest : Str) :
    lexical cwd (base ++ '/' :: rest) = (components rest).foldl descend (storeRoot cwd base) := by
  have ho : origin cwd (base ++ '/' :: rest) = origin cwd (base ++ ['/']) := by
    cases base <;> rfl
  rw [lexical, components_append hbase, List.foldl_append, ho, storeRoot]

theorem properName_decimal (n : ℕ) : ProperName (decimal n) := by
  obtain ⟨c, hc⟩ := List.exists_mem_of_ne_nil _ (decimal_ne_nil n)
  refine properName_of_mem hc ?_
  rintro rfl
  exact notMem_decimal (by decide) n hc

theorem properName_partition (sig1 sig2 : UInt32) (fmt : Str) :
    ProperName (partition sig1 sig2 fmt) := by
  obtain ⟨c, he, hc⟩ := category_letter fmt
  refine properName_of_mem (c := c) (by simp [partition, he]) ?_
  rintro rfl
  cases hc

theorem properName_fileName (sig1 : UInt32) (fmt : Str) : ProperName (fileName sig1 fmt) := by
  obtain ⟨c, hc⟩ := List.exists_mem_of_ne_nil _ (decimal_ne_nil sig1.toNat)
  refine properName_of_mem (List.mem_append_left _ hc) ?_
  rintro rfl
  exact notMem_decimal (by decide) _ hc

theorem sigPath_components_cString (sig : UInt32 × UInt32) {fmt : Str}
    (hslash : '/' ∉ cString (lower fmt)) :
    components (sigPath sig.1 sig.2 fmt) =
      [partition sig.1 sig.2 (lower fmt), decimal (sig.2 % 100).toNat,
        decimal (sig.2 / 100 % 100).toNat, fileName sig.1 (cString (lower fmt))] := by
  have hdec {c : Char} (hc : c.isDigit = false) (n : ℕ) : c ∉ decimal n := notMem_decimal hc n
  have hpart {c : Char} (hd : c.isDigit = false) (hl : c.isLower = false) :
      c ∉ partition sig.1 sig.2 (lower fmt) := notMem_partition hd hl _ _ _
  have hcut : cString (fileName sig.1 (lower fmt)) = fileName sig.1 (cString (lower fmt)) := by
    have hdot : nul ∉ decimal sig.1.toNat ++ ['.'] := by
      simp [hdec (show nul.isDigit = false by decide), show nul ≠ '.' by decide]
    simpa [fileName] using cString_append hdot (lower fmt)
  have hfile : components (fileName sig.1 (lower fmt)) = [fileName sig.1 (cString (lower fmt))] := by
    rw [components, hcut]
    exact List.splitOn_eq_singleton (by simp [fileName, hdec, hslash])
  rw [sigPath_eq, components_append (hpart (by decide) (by decide)),
    components_append (hdec (by decide) _), components_append (hdec (by decide) _), hfile,
    components_name (hpart (by decide) (by decide)) (hpart (by decide) (by decide)),
    components_name (hdec (by decide) _) (hdec (by decide) _),
    components_name (hdec (by decide) _) (hdec (by decide) _)]
  rfl

theorem sigPath_components (sig : UInt32 × UInt32) {fmt : Str} (hslash : '/' ∉ fmt)
    (hnul : nul ∉ fmt) :
    components (sigPath sig.1 sig.2 fmt) =
      [partition sig.1 sig.2 (lower fmt), decimal (sig.2 % 100).toNat,
        decimal (sig.2 / 100 % 100).toNat, fileName sig.1 (lower fmt)] := by
  have hcut := cString_of_nul_free (notMem_lower (c := nul) (by decide) hnul)
  have hcomponents := @sigPath_components_cString sig fmt
  rw [hcut] at hcomponents
  exact hcomponents (notMem_lower (by decide) hslash)

theorem target_location (hbase : nul ∉ base) {p : Publication β} (hp : p.Plain) :
    lexical cwd (p.target signature base) =
      fileName (signature p.data).1 (lower p.fmt) :: decimal ((signature p.data).2 / 100 % 100).toNat ::
        decimal ((signature p.data).2 % 100).toNat ::
          partition (signature p.data).1 (signature p.data).2 (lower p.fmt) :: storeRoot cwd base := by
  have ht : p.target signature base =
      base ++ '/' :: sigPath (signature p.data).1 (signature p.data).2 p.fmt := by
    simp [Publication.target, targetPath]
  rw [ht, lexical_below hbase, sigPath_components _ hp.fmt_slash hp.fmt_nul]
  simp only [List.foldl_cons, List.foldl_nil, descend_proper (properName_partition _ _ _),
    descend_proper (properName_decimal _), descend_proper (properName_fileName _ _)]

theorem source_location_length (hbase : nul ∉ base) {p : Publication β} (hp : p.Plain) :
    (lexical cwd (p.source base)).length ≤ (storeRoot cwd base).length + 2 := by
  have hs : p.source base = base ++ '/' :: ("tmp".toList ++ '/' :: (p.name ++ '.' :: p.fmt)) := by
    simp [Publication.source, tmpPath]
  have htmp : components "tmp".toList = ["tmp".toList] := by decide
  have hname : components (p.name ++ '.' :: p.fmt) = [p.name ++ '.' :: p.fmt] := by
    apply components_name
    · simp [hp.name_slash, hp.fmt_slash]
    · simp [hp.name_nul, hp.fmt_nul, show nul ≠ '.' from by decide]
  rw [hs, lexical_below hbase, components_append (by decide), htmp, hname]
  simp only [List.cons_append, List.nil_append, List.foldl_cons, List.foldl_nil]
  have h₁ := descend_length (storeRoot cwd base) "tmp".toList
  have h₂ := descend_length (descend (storeRoot cwd base) "tmp".toList) (p.name ++ '.' :: p.fmt)
  omega

variable (signature cwd) in
theorem plain_locations (hbase : nul ∉ base) {p q : Publication β} (hp : p.Plain) (hq : q.Plain) :
    (lexical cwd (q.target signature base) = lexical cwd (p.target signature base) ↔
      q.Agrees signature p) ∧
    lexical cwd (q.source base) ≠ lexical cwd (p.target signature base) := by
  constructor
  · constructor
    · intro h
      rw [target_location hbase hp, target_location hbase hq] at h
      simp only [List.cons.injEq, and_true] at h
      obtain ⟨hfile, h2, h1, hpart⟩ := h
      obtain ⟨hsig, hfmt⟩ := (fileName_eq_iff _ _ _ _).mp hfile
      rw [hfmt, partition_eq_iff] at hpart
      exact ⟨⟨hsig, (levels_eq_iff _ _).mp ⟨h1, h2⟩, hpart⟩, hfmt⟩
    · intro h
      rw [(target_eq_iff signature base q p).mpr h]
  · intro h
    have hlen : (lexical cwd (q.source base)).length ≤ (storeRoot cwd base).length + 2 :=
      source_location_length hbase hq
    rw [h, target_location hbase hp] at hlen
    simp only [List.length_cons] at hlen
    omega

end Plain

theorem stage_keepsDirs (t : Volume β) (p : Publication β) : KeepsDirs t (stage cwd base t p) := by
  unfold stage
  split
  · exact storeFile_keepsDirs t _ _ _
  · exact .refl t

theorem stage_fileAt_of_ne (t : Volume β) (p : Publication β) {l : Loc}
    (hl : l ≠ lexical cwd (p.source base)) : (stage cwd base t p).fileAt l = t.fileAt l := by
  unfold stage
  split
  · rename_i s hs
    rw [Volume.entry_lexical hs, Volume.fileAt, storeFile_of_ne t _ _ hl]
    rfl
  · rfl

theorem stage_source {t : Volume β} {p : Publication β} {s : Loc} {b : β}
    (hs : (stage cwd base t p).entry cwd (p.source base) = some s)
    (hb : (stage cwd base t p).fileAt s = some b) : b = p.data := by
  cases he : t.entry cwd (p.source base) with
  | none => simp [stage, he] at hs
  | some s' =>
    obtain rfl : s' = s := (Volume.entry_lexical he).trans (Volume.entry_lexical hs).symm
    simp only [stage, he] at hb
    exact storeFile_fileAt he _ _ hb

/-- A publication either fails and leaves every file outside its temporary
name alone, or puts its contents at its target and leaves the others alone. -/
theorem publish_cases (t : Volume β) (p : Publication β) :
    KeepsDirs t (publish signature cwd base t p).2 ∧
      ((publish signature cwd base t p).1 = -1 ∧
        (∀ l, l ≠ lexical cwd (p.source base) →
          (publish signature cwd base t p).2.fileAt l = t.fileAt l) ∨
      (publish signature cwd base t p).1 = 0 ∧
        (publish signature cwd base t p).2.entry cwd (p.target signature base) =
          some (lexical cwd (p.target signature base)) ∧
        (publish signature cwd base t p).2.fileAt (lexical cwd (p.target signature base)) =
          some p.data ∧
        ∀ l, l ≠ lexical cwd (p.source base) → l ≠ lexical cwd (p.target signature base) →
          (publish signature cwd base t p).2.fileAt l = t.fileAt l) := by
  have hstage := stage_keepsDirs cwd base t p
  rcases mvfile_spec cwd (p.source base) (p.target signature base) p.faults (stage cwd base t p) with
    ⟨hr, hgrow⟩ | ⟨hr, t₁, s, d, hgrow, hs, hd, hmoved⟩
  · refine ⟨hstage.trans hgrow.keepsDirs, .inl ⟨hr, fun l hl ↦ ?_⟩⟩
    exact (hgrow.fileAt l).trans (stage_fileAt_of_ne cwd base t p hl)
  · have hsl := Volume.entry_lexical hs
    have hdl := Volume.entry_lexical hd
    obtain ⟨b, hb⟩ := Volume.fileAt_of_isFile hmoved.isFile
    have hdata : b = p.data := stage_source cwd base hs ((hgrow.fileAt s).symm.trans hb)
    refine ⟨(hstage.trans hgrow.keepsDirs).trans hmoved.keepsDirs, .inr ⟨hr, ?_, ?_, ?_⟩⟩
    · rw [← hdl]
      exact hmoved.keepsDirs.slot hd
    · rw [← hdl, ← hdata, ← hb]
      exact hmoved.fileAt_dst
    · intro l hls hld
      rw [← hsl] at hls
      rw [← hdl] at hld
      refine (hmoved.fileAt_of_ne hls hld).trans ((hgrow.fileAt l).trans ?_)
      exact stage_fileAt_of_ne cwd base t p (hsl ▸ hls)

def Holds (p : Publication β) (t : Volume β) : Prop :=
  ∃ b, t.content cwd (p.target signature base) = some b ∧ signature b = signature p.data

/-- Another publication spares the target: it has the same pair or goes to
another file, and it does not start from the target. -/
def Spares (p q : Publication β) : Prop :=
  (signature q.data = signature p.data ∨
    lexical cwd (q.target signature base) ≠ lexical cwd (p.target signature base)) ∧
  lexical cwd (q.source base) ≠ lexical cwd (p.target signature base)

instance (p q : Publication β) : Decidable (Spares signature cwd base p q) :=
  inferInstanceAs (Decidable (_ ∧ _))

theorem holds_of_publish {t : Volume β} {p : Publication β}
    (h : (publish signature cwd base t p).1 = 0) :
    Holds signature cwd base p (publish signature cwd base t p).2 := by
  rcases publish_cases signature cwd base t p with ⟨-, ⟨hr, -⟩ | ⟨-, he, hd, -⟩⟩
  · rw [h] at hr
    cases hr
  · exact ⟨p.data, (Volume.content_entry he).trans hd, rfl⟩

theorem holds_step {t : Volume β} {p q : Publication β} (hq : Spares signature cwd base p q)
    (h : Holds signature cwd base p t) :
    Holds signature cwd base p (publish signature cwd base t q).2 := by
  obtain ⟨b, hb, hsig⟩ := h
  obtain ⟨l, hl, hlb⟩ := Option.bind_eq_some_iff.mp hb
  have hloc := Volume.find_lexical hl
  obtain ⟨hdirs, hcase⟩ := publish_cases signature cwd base t q
  have hcontent : (publish signature cwd base t q).2.content cwd (p.target signature base) =
      (publish signature cwd base t q).2.fileAt l := by
    rw [Volume.content, hdirs.find hl]
    rfl
  have hsrc : l ≠ lexical cwd (q.source base) := fun hls ↦ hq.2 (hls.symm.trans hloc)
  rcases hcase with ⟨-, hframe⟩ | ⟨-, -, hd, hframe⟩
  · exact ⟨b, by rw [hcontent, hframe l hsrc, hlb], hsig⟩
  · by_cases hlt : l = lexical cwd (q.target signature base)
    · refine ⟨q.data, by rw [hcontent, hlt, hd], ?_⟩
      exact hq.1.resolve_right (fun hne ↦ hne (hlt.symm.trans hloc))
    · exact ⟨b, by rw [hcontent, hframe l hsrc hlt, hlb], hsig⟩

theorem holds_run {t : Volume β} {p : Publication β} (later : List (Publication β))
    (hq : ∀ q ∈ later, Spares signature cwd base p q) (h : Holds signature cwd base p t) :
    Holds signature cwd base p (publishAll signature cwd base t later) := by
  induction later generalizing t with
  | nil => exact h
  | cons q later ih =>
    refine ih (fun q' hq' ↦ hq q' (List.mem_cons_of_mem q hq')) ?_
    exact holds_step signature cwd base (hq q List.mem_cons_self) h

/-- Publications share a target path exactly when they agree in the first
signature, the second modulo 10000, the exclusive or modulo 3 and the
lower-case format. A published pair stays at its path through every later
publication that does not bring another pair to the same file; for plain
names the latter means disagreeing in one of these four. -/
theorem published_pair_kept (t : Volume β) (before later : List (Publication β)) (p : Publication β) :
    (∀ q : Publication β,
      q.target signature base = p.target signature base ↔ q.Agrees signature p) ∧
    (nul ∉ base → p.Plain → ∀ q : Publication β, q.Plain →
      (Spares signature cwd base p q ↔
        (signature q.data = signature p.data ∨ ¬ q.Agrees signature p))) ∧
    ((publish signature cwd base (publishAll signature cwd base t before) p).1 = 0 →
      (∀ q ∈ later, Spares signature cwd base p q) →
      Holds signature cwd base p (publishAll signature cwd base t (before ++ p :: later))) := by
  refine ⟨fun q ↦ target_eq_iff signature base q p, fun hbase hp q hq ↦ ?_, fun hok hlater ↦ ?_⟩
  · obtain ⟨hiff, hsrc⟩ := plain_locations signature cwd hbase hp hq
    simp only [Spares, hsrc, ne_eq, not_false_eq_true, and_true, hiff]
  · have hp := holds_of_publish signature cwd base hok
    simpa only [publishAll, List.foldl_append, List.foldl_cons] using
      holds_run signature cwd base later hlater hp

section Clash

def emptyStore : Volume β :=
  (mkdir [] "/s/tmp".toList 0o755 (mkdir [] "/s".toList 0o755 Volume.bare).2).2

def pub (name : String) (sig2 : UInt32) (fmt : String) : Publication (UInt32 × UInt32) :=
  ⟨name.toList, (0, sig2), fmt.toList, []⟩

theorem published_pair_kept_instance :
    (publish id [] "/s".toList emptyStore (pub "x" 0 "mp3")).1 = 0 ∧
      Spares id [] "/s".toList (pub "x" 0 "mp3") (pub "y" 7 "mp3") ∧
      Holds id [] "/s".toList (pub "x" 0 "mp3")
        (publishAll id [] "/s".toList emptyStore [pub "x" 0 "mp3", pub "y" 7 "mp3"]) := by
  have hok : (publish id [] "/s".toList emptyStore (pub "x" 0 "mp3")).1 = 0 := by decide +kernel
  have hkept := published_pair_kept id [] "/s".toList emptyStore [] [pub "y" 7 "mp3"] (pub "x" 0 "mp3")
  have hspares : Spares id [] "/s".toList (pub "x" 0 "mp3") (pub "y" 7 "mp3") := by
    refine (hkept.2.1 (by decide) ?_ _ ?_).mpr (.inr ?_)
    · constructor <;> decide
    · constructor <;> decide
    · rw [← hkept.1]
      decide +kernel
  exact ⟨hok, hspares, hkept.2.2 hok (by simpa using hspares)⟩

theorem published_pair_lost :
    let first := pub "x" 0 "mp3"
    let second := pub "y" 30000 "mp3"
    let t₁ := publish id [] "/s".toList emptyStore first
    let t₂ := publish id [] "/s".toList t₁.2 second
    first.data ≠ second.data ∧
      first.target id "/s".toList = second.target id "/s".toList ∧ t₁.1 = 0 ∧ t₂.1 = 0 ∧
      t₂.2.content [] (first.target id "/s".toList) = some second.data := by
  decide +kernel

end Clash

end Calcsig.Store.Publishing
