import Calcsig.Foundation.Interleavings
import Calcsig.Store.MovePaths

namespace Calcsig.Store.ConcurrentMoves

open Foundation.Text Foundation.FileTree Foundation.FileCalls Foundation.Programs
open Foundation.Interleavings Utils.MoveFile MovePaths

variable {β : Type}

def Rely (F : Loc → Prop) (s s' : Volume β) : Prop :=
  KeepsDirs s s' ∧ ∀ l, F l → s'.node l = s.node l

def Guar (F : Loc → Prop) (s s' : Volume β) : Prop :=
  KeepsDirs s s' ∧ ∀ l, ¬ F l → s'.node l = s.node l

theorem Rely.refl (F : Loc → Prop) (s : Volume β) : Rely F s s := ⟨.refl s, fun _ _ ↦ rfl⟩

theorem Rely.trans (F : Loc → Prop) (s t u : Volume β) (h : Rely F s t) (h' : Rely F t u) :
    Rely F s u := ⟨h.1.trans h'.1, fun l hl ↦ (h'.2 l hl).trans (h.2 l hl)⟩

theorem Guar.refl (F : Loc → Prop) (s : Volume β) : Guar F s s := ⟨.refl s, fun _ _ ↦ rfl⟩

variable (cwd : Loc) (base : Str) (t : Volume β) (mv : Move)

/-- The places a move may change: its source, its target and the directories
it finds missing. -/
def Footprint (l : Loc) : Prop :=
  l = mv.source cwd ∨ l = mv.target cwd base ∨
    ∃ j ≤ mv.parents.length, l = mv.level cwd base j ∧ t.node l = none

/-- Before its rename a move has made the directories down to level `k`. -/
structure Stage (k : ℕ) (s : Volume β) : Prop where
  keeps : KeepsDirs t s
  made : mv.Made cwd base k s
  source : s.node (mv.source cwd) = t.node (mv.source cwd)
  target : s.node (mv.target cwd base) = t.node (mv.target cwd base)

structure Arrived (s : Volume β) : Prop where
  found : s.entry cwd (mv.dst base) = some (mv.target cwd base)
  content : s.node (mv.target cwd base) = t.node (mv.source cwd)

section Progress

variable {cwd base t mv} {k j : ℕ} {s s' : Volume β}

theorem level_length (hj : j ≤ mv.parents.length) :
    (mv.level cwd base j).length = j + (lexical cwd base).length := by
  simp [Move.level, hj]

theorem Stage.missing (hm : mv.Ready cwd base t) (h : Stage cwd base t mv k s)
    (hj : j ≤ mv.parents.length) (hk : k < j) : t.node (mv.level cwd base j) = none := by
  rcases hm.parents j hj with hnone | hmod
  · exact hnone
  · obtain ⟨p, hp, -⟩ := Volume.dir_of_modifiable hmod
    have hs := h.keeps hp
    rw [(h.made j hj).2 hk] at hs
    cases hs

theorem Stage.stable (hm : mv.Ready cwd base t) (h : Stage cwd base t mv k s)
    (hr : Rely (Footprint cwd base t mv) s s') : Stage cwd base t mv k s' := by
  refine ⟨h.keeps.trans hr.1, fun j hj ↦ ⟨fun hjk ↦ ?_, fun hkj ↦ ?_⟩, ?_, ?_⟩
  · exact hr.1.modifiable ((h.made j hj).1 hjk)
  · rw [hr.2 _ (.inr (.inr ⟨j, hj, rfl, h.missing hm hj hkj⟩))]
    exact (h.made j hj).2 hkj
  · rw [hr.2 _ (.inl rfl), h.source]
  · rw [hr.2 _ (.inr (.inl rfl)), h.target]

theorem Arrived.stable (h : Arrived cwd base t mv s) (hr : Rely (Footprint cwd base t mv) s s') :
    Arrived cwd base t mv s' :=
  ⟨hr.1.slot h.found, (hr.2 _ (.inr (.inl rfl))).trans h.content⟩

theorem Stage.next (hb : BaseReady cwd base t) (hm : mv.Ready cwd base t)
    (h : Stage cwd base t mv k s) (hk : k < mv.parents.length) :
    (mkdir cwd (mv.path base (k + 1)) 0o775 s).1 = true ∧
      Guar (Footprint cwd base t mv) s (mkdir cwd (mv.path base (k + 1)) 0o775 s).2 ∧
      Stage cwd base t mv (k + 1) (mkdir cwd (mv.path base (k + 1)) 0o775 s).2 := by
  obtain ⟨c, -, -, hlevel⟩ := level_succ cwd base hm.named hk
  have hnone := (h.made (k + 1) hk).2 (by omega)
  have hmissing := h.missing hm hk (Nat.lt_succ_self k)
  simp only [mkdir, dirEntry_path hb hm.named h.keeps h.made hk]
  obtain ⟨hok, hdir⟩ := makeDir_made (p := Perm.ofMode 0o775) (l := mv.level cwd base (k + 1))
    (by simp [hlevel]) hnone (by rw [hlevel]; exact (h.made k (by omega)).1 le_rfl)
  refine ⟨hok, ⟨hdir.onlyDirs.keepsDirs, fun l hl ↦ hdir.frame l ?_⟩, ?_⟩
  · rintro rfl
    exact hl (.inr (.inr ⟨k + 1, hk, rfl, hmissing⟩))
  · refine ⟨h.keeps.trans hdir.onlyDirs.keepsDirs, fun j hj ↦ ⟨fun hjk ↦ ?_, fun hkj ↦ ?_⟩, ?_, ?_⟩
    · rcases Nat.lt_or_ge k j with hlt | hge
      · obtain rfl : j = k + 1 := by omega
        simp only [Volume.modifiable, hdir.made]
        decide
      · exact hdir.onlyDirs.keepsDirs.modifiable ((h.made j hj).1 hge)
    · rw [hdir.frame _ (fun he ↦ ?_)]
      · exact (h.made j hj).2 (by omega)
      · have hlen := congrArg List.length he
        rw [level_length hj, level_length hk] at hlen
        omega
    · rw [hdir.frame _ (fun he ↦ ?_), h.source]
      obtain ⟨p, b, hfile, -⟩ := hm.file
      rw [he, hmissing] at hfile
      cases hfile
    · rw [hdir.frame _ (fun he ↦ ?_), h.target]
      have hlen := congrArg List.length he
      rw [Move.target, List.length_cons, level_length le_rfl, level_length hk] at hlen
      omega

theorem makeLast_within (hb : BaseReady cwd base t) (hm : mv.Ready cwd base t)
    (h : Stage cwd base t mv k s) (hk : k < mv.parents.length) :
    Within (answer cwd) (Rely (Footprint cwd base t mv)) (Guar (Footprint cwd base t mv))
      (fun r s ↦ r = 0 ∧ Stage cwd base t mv (k + 1) s) (makeLast (mv.path base (k + 1)) 0o775) s := by
  intro s' hr
  obtain ⟨hok, hguar, hnext⟩ := (h.stable hm hr).next hb hm hk
  refine ⟨hguar, ?_⟩
  simp only [answer, hok, if_true]
  exact fun s'' hr' ↦ ⟨rfl, hnext.stable hm hr'⟩

theorem mkdirs_within (hb : BaseReady cwd base t) (hm : mv.Ready cwd base t)
    (h : Stage cwd base t mv k s) (hj : j ≤ mv.parents.length) (hk : k < j) :
    Within (answer cwd) (Rely (Footprint cwd base t mv)) (Guar (Footprint cwd base t mv))
      (fun r s ↦ r = 0 ∧ Stage cwd base t mv j s) (mkdirs (mv.path base j) 0o775) s := by
  induction j generalizing s with
  | zero => omega
  | succ j ih =>
    rw [mkdirs_path hb hm.named hj]
    intro s' hr
    have hs := h.stable hm hr
    refine ⟨.refl _ s', ?_⟩
    simp only [answer, access_path hb hm.named hs.keeps hs.made (j := j) (by omega)]
    by_cases hjk : j ≤ k
    · obtain rfl : j = k := by omega
      simpa only [le_refl, decide_true, if_true] using makeLast_within hb hm hs hj
    · simp only [hjk, decide_false, Bool.false_eq_true, if_false]
      refine (ih hs (by omega) (by omega)).bind (Rely.refl _) (fun r u hu ↦ ?_)
      obtain ⟨rfl, hu⟩ := hu
      simpa only [ne_eq, not_true, if_false] using makeLast_within hb hm hu hj

theorem ensureParent_within (hb : BaseReady cwd base t) (hm : mv.Ready cwd base t)
    (h : Stage cwd base t mv k s) (hk : k ≤ mv.parents.length) :
    Within (answer cwd) (Rely (Footprint cwd base t mv)) (Guar (Footprint cwd base t mv))
      (fun r s ↦ r = 0 ∧ Stage cwd base t mv mv.parents.length s) (ensureParent (mv.dst base)) s := by
  rw [ensureParent_dst hm.named]
  intro s' hr
  have hs := h.stable hm hr
  refine ⟨.refl _ s', ?_⟩
  simp only [answer, access_path hb hm.named hs.keeps hs.made le_rfl]
  by_cases hle : mv.parents.length ≤ k
  · obtain rfl : k = mv.parents.length := by omega
    simp only [le_refl, decide_true, if_true]
    exact fun u hu ↦ ⟨rfl, hs.stable hm hu⟩
  · simp only [hle, decide_false, Bool.false_eq_true, if_false]
    refine (mkdirs_within hb hm hs le_rfl (by omega)).bind (Rely.refl _) (fun r u hu ↦ ?_)
    obtain ⟨rfl, hu⟩ := hu
    exact fun u' hu' ↦ ⟨by simp, hu.stable hm hu'⟩

theorem rename_within (hb : BaseReady cwd base t) (hm : mv.Ready cwd base t)
    (h : Stage cwd base t mv mv.parents.length s) :
    Within (answer cwd) (Rely (Footprint cwd base t mv)) (Guar (Footprint cwd base t mv))
      (fun r s ↦ r = 0 ∧ Arrived cwd base t mv s)
      (.call (.rename mv.src (mv.dst base)) (fun ok ↦ .ret (if ok then (0 : ℤ) else -1))) s := by
  intro s' hr
  have hs := h.stable hm hr
  obtain ⟨p, b, hfile, -⟩ := hm.file
  have hdst := entry_dst hb hm.named hs.keeps hs.made
  have hdir : s'.isDir (mv.target cwd base) = false := by
    rw [← hm.target, Volume.isDir, hs.target]
    rfl
  obtain ⟨hok, hmoved⟩ := moveFile_moved (t := s') (s := mv.source cwd) (d := mv.target cwd base)
    (by simp only [Volume.isFile, hs.source, hfile]) (by simp [Move.target]) hdir
    (hs.keeps.modifiable hm.source_dir) ((hs.made _ le_rfl).1 le_rfl)
  have he : rename cwd mv.src (mv.dst base) s' =
      moveFile s' (mv.source cwd) (mv.target cwd base) := by
    have hsrc : s'.entry cwd mv.src = some (mv.source cwd) := hs.keeps.slot hm.found
    simp only [rename, hsrc, hdst]
  simp only [answer, he, hok, if_true]
  refine ⟨⟨hmoved.keepsDirs, fun l hl ↦ hmoved.frame l ?_ ?_⟩, fun u hu ↦ ⟨rfl, ?_⟩⟩
  · exact fun hls ↦ hl (.inl hls)
  · exact fun hld ↦ hl (.inr (.inl hld))
  · exact Arrived.stable ⟨hmoved.keepsDirs.slot hdst, hmoved.arrives.trans hs.source⟩ hu

theorem mvfile_within (hb : BaseReady cwd base t) (hm : mv.Ready cwd base t) :
    Within (answer cwd) (Rely (Footprint cwd base t mv)) (Guar (Footprint cwd base t mv))
      (fun r s ↦ r = 0 ∧ Arrived cwd base t mv s) (mvfile mv.src (mv.dst base)) t := by
  obtain ⟨k, hk, hmade⟩ := hm.exists_made hb
  obtain ⟨p, b, hfile, hw⟩ := hm.file
  intro s hr
  have hs : Stage cwd base t mv k s := Stage.stable hm ⟨.refl t, hmade, rfl, rfl⟩ hr
  have hacc : access cwd mv.src ⟨false, true, false⟩ s = true := by
    have hf := Volume.entry_find (hs.keeps.slot hm.found)
    simp [access, hf, hs.source, hfile, Node.perm, Perm.allows, hw]
  refine ⟨.refl _ s, ?_⟩
  simp only [answer, hacc, Bool.true_eq_false, if_false]
  refine (ensureParent_within hb hm hs hk).bind (Rely.refl _) (fun r u hu ↦ ?_)
  obtain ⟨rfl, hu⟩ := hu
  simpa only [ne_eq, not_true, if_false] using rename_within hb hm hu

theorem mkdirs_hinges (hb : BaseReady cwd base t) (hn : mv.Named) (h : mv.Made cwd base k t)
    (hj : j ≤ mv.parents.length) (hk : k < j) :
    (mkdirs (mv.path base j) 0o775).HingesOn (answer cwd) t
      (.mkdir (mv.path base (k + 1)) 0o775) (-1) := by
  induction j with
  | zero => omega
  | succ j ih =>
    rw [mkdirs_path hb hn hj]
    apply Prog.HingesOn.after rfl
    simp only [answer, access_path hb hn (.refl t) h (j := j) (by omega)]
    by_cases hjk : j ≤ k
    · obtain rfl : j = k := by omega
      simp only [le_refl, decide_true, if_true]
      exact .here rfl
    · simp only [hjk, decide_false, Bool.false_eq_true, if_false]
      exact (ih (by omega) (by omega)).bind rfl

theorem mvfile_hinges (hb : BaseReady cwd base t) (hm : mv.Ready cwd base t)
    (h : mv.Made cwd base k t) (hk : k < mv.parents.length) :
    (mvfile mv.src (mv.dst base)).HingesOn (answer cwd) t
      (.mkdir (mv.path base (k + 1)) 0o775) (-1) := by
  obtain ⟨p, b, hfile, hw⟩ := hm.file
  have hsrc : access cwd mv.src ⟨false, true, false⟩ t = true := by
    simp [access, Volume.entry_find hm.found, hfile, Node.perm, Perm.allows, hw]
  have hnot : ¬ mv.parents.length ≤ k := by omega
  apply Prog.HingesOn.after rfl
  simp only [answer, hsrc, Bool.true_eq_false, if_false, ensureParent_dst hm.named, Prog.call_bind]
  apply Prog.HingesOn.after rfl
  simp only [answer, access_path hb hm.named (.refl t) h le_rfl, hnot, decide_false,
    Bool.false_eq_true, if_false]
  refine Prog.HingesOn.bind (a := -1) (Prog.HingesOn.bind (a := -1) ?_ rfl) rfl
  exact mkdirs_hinges hb hm.named h le_rfl hk

end Progress

variable (mvs : Bool → Move)

def start : Config SysCall (Volume β) ℤ Bool := ⟨t, fun i ↦ mvfile (mvs i).src ((mvs i).dst base)⟩

def Complete (schedule : List Bool) : Prop :=
  ∀ i, (mvfile (mvs i).src ((mvs i).dst base)).depth ≤ schedule.count i

def Published (schedule : List Bool) (i : Bool) : Prop :=
  ((interleave (answer cwd) (start base t mvs) schedule).proc i).result = some 0 ∧
    (interleave (answer cwd) (start base t mvs) schedule).state.content cwd ((mvs i).dst base) =
      t.content cwd (mvs i).src

/-- The two moves share no missing directory, no source is the other's
destination, and no destination lies below the other. -/
structure Independent : Prop where
  dirs : ∀ j ≤ (mvs true).parents.length, ∀ k ≤ (mvs false).parents.length,
    (mvs true).level cwd base j = (mvs false).level cwd base k →
      t.node ((mvs true).level cwd base j) ≠ none
  sources : ∀ i, (mvs i).source cwd ≠ (mvs !i).target cwd base
  apart : ∀ i, ¬ (mvs i).target cwd base <:+ (mvs !i).target cwd base

structure Scene : Prop where
  base_ready : BaseReady cwd base t
  ready : ∀ i, (mvs i).Ready cwd base t
  sources : (mvs true).source cwd ≠ (mvs false).source cwd
  targets : (mvs true).target cwd base ≠ (mvs false).target cwd base

section Pair

variable {cwd base t mvs}

theorem level_suffix_target (mv : Move) (j : ℕ) : mv.level cwd base j <:+ mv.target cwd base := by
  have hsuffix : (mv.parents.take j).reverse <:+ mv.parents.reverse :=
    List.reverse_suffix.mpr (List.take_prefix j mv.parents)
  obtain ⟨u, hu⟩ := hsuffix
  refine ⟨mv.name :: u, ?_⟩
  simp only [Move.target, Move.level, List.take_length, ← hu, List.cons_append, List.append_assoc]

theorem Scene.ne (hs : Scene cwd base t mvs) (i : Bool) :
    (mvs i).source cwd ≠ (mvs !i).source cwd ∧
      (mvs i).target cwd base ≠ (mvs !i).target cwd base := by
  cases i with
  | true => exact ⟨hs.sources, hs.targets⟩
  | false => exact ⟨hs.sources.symm, hs.targets.symm⟩

theorem Independent.levels (h : Independent cwd base t mvs) (i : Bool) {j k : ℕ}
    (hj : j ≤ (mvs i).parents.length) (hk : k ≤ (mvs !i).parents.length)
    (he : (mvs i).level cwd base j = (mvs !i).level cwd base k) :
    t.node ((mvs i).level cwd base j) ≠ none := by
  cases i with
  | true => exact h.dirs j hj k hk he
  | false => exact he ▸ h.dirs k hk j hj he.symm

theorem footprints_disjoint (hs : Scene cwd base t mvs) (h : Independent cwd base t mvs) (i : Bool)
    {l : Loc} (hl : Footprint cwd base t (mvs i) l) : ¬ Footprint cwd base t (mvs !i) l := by
  have hsource (i : Bool) : t.node ((mvs i).source cwd) ≠ none := by
    obtain ⟨p, b, hfile, -⟩ := (hs.ready i).file
    simp [hfile]
  have happart := h.apart (!i)
  have hother := h.sources (!i)
  rw [Bool.not_not] at happart hother
  rcases hl with rfl | rfl | ⟨j, hj, rfl, hnone⟩
  · rintro (he | he | ⟨k, -, -, hnone⟩)
    · exact (hs.ne i).1 he
    · exact h.sources i he
    · exact hsource i hnone
  · rintro (he | he | ⟨k, -, he, -⟩)
    · exact hother he.symm
    · exact (hs.ne i).2 he
    · exact h.apart i (he ▸ level_suffix_target (mvs !i) k)
  · rintro (he | he | ⟨k, hk, he, -⟩)
    · exact hsource (!i) (he ▸ hnone)
    · exact happart (he ▸ level_suffix_target (mvs i) j)
    · exact h.levels i hj hk he hnone

theorem published_of_independent (hs : Scene cwd base t mvs) (h : Independent cwd base t mvs)
    (schedule : List Bool) (hc : Complete base mvs schedule) (i : Bool) :
    Published cwd base t mvs schedule i := by
  obtain ⟨a, ha⟩ : ∃ a, (interleave (answer cwd) (start base t mvs) schedule).proc i = .ret a :=
    interleave_finishes _ i schedule (hc i)
  have hwithin (i : Bool) := mvfile_within hs.base_ready (hs.ready i)
  have hguar (i j : Bool) (s s' : Volume β) (hij : j ≠ i)
      (hg : Guar (Footprint cwd base t (mvs j)) s s') : Rely (Footprint cwd base t (mvs i)) s s' := by
    obtain rfl : j = !i := by
      cases i <;> cases j <;> simp at hij ⊢
    exact ⟨hg.1, fun l hl ↦ hg.2 l (footprints_disjoint hs h i hl)⟩
  obtain ⟨rfl, harrived⟩ := interleave_within (start base t mvs) hwithin (fun i ↦ Rely.refl _)
    (fun i ↦ Rely.trans _) hguar schedule i ha
  refine ⟨by rw [ha]; rfl, ?_⟩
  rw [Volume.content_entry harrived.found, Volume.content_entry (hs.ready i).found, Volume.fileAt,
    harrived.content]
  rfl

variable (base mvs) in
def rest : List Bool :=
  List.replicate (mvfile (mvs true).src ((mvs true).dst base)).depth true ++
    List.replicate (mvfile (mvs false).src ((mvs false).dst base)).depth false

variable (cwd base t mvs) in
def Lost : Prop :=
  ∃ schedule, Complete base mvs schedule ∧ ∃ i, ¬ Published cwd base t mvs schedule i

theorem lost_of_not_all {schedule : List Bool} (hc : Complete base mvs schedule)
    (h : ¬ ∀ i, Published cwd base t mvs schedule i) : Lost cwd base t mvs :=
  ⟨schedule, hc, not_forall.mp h⟩

theorem Published.fileAt (hs : Scene cwd base t mvs) {schedule : List Bool} {i : Bool}
    (h : Published cwd base t mvs schedule i) :
    ∃ b, (interleave (answer cwd) (start base t mvs) schedule).state.fileAt
      ((mvs i).target cwd base) = some b := by
  obtain ⟨p, b, hfile, -⟩ := (hs.ready i).file
  have hb : t.content cwd (mvs i).src = some b := by
    rw [Volume.content_entry (hs.ready i).found, Volume.fileAt, hfile]
  refine ⟨b, ?_⟩
  rw [← lexical_dst hs.base_ready (hs.ready i).named]
  exact Volume.fileAt_of_content (h.2.trans hb)

theorem complete_rest (schedule : List Bool) : Complete base mvs (schedule ++ rest base mvs) := by
  intro i
  cases i with
  | true => simp [rest, List.count_replicate]
  | false => simp [rest, List.count_replicate]

theorem shared_top {a b : Move} {j k m n : ℕ} (hj : j ≤ a.parents.length)
    (hk : k ≤ b.parents.length) (he : a.level cwd base j = b.level cwd base k)
    (hnone : t.node (a.level cwd base j) = none) (ha : a.Made cwd base m t)
    (hb : b.Made cwd base n t) :
    m = n ∧ m < a.parents.length ∧ n < b.parents.length ∧ a.path base (m + 1) = b.path base (n + 1) := by
  have htake : a.parents.take j = b.parents.take k :=
    List.reverse_injective (List.append_cancel_right he)
  have hjk : j = k := by
    have hlen := congrArg List.length htake
    simpa [List.length_take, hj, hk] using hlen
  subst hjk
  have hsame (i : ℕ) (hi : i ≤ j) : a.parents.take i = b.parents.take i := by
    have h := congrArg (List.take i) htake
    simpa only [List.take_take, Nat.min_eq_left hi] using h
  have hlevel (i : ℕ) (hi : i ≤ j) : a.level cwd base i = b.level cwd base i := by
    simp only [Move.level, hsame i hi]
  have hgone {l : Loc} (hmod : t.modifiable l = true) : t.node l ≠ none := by
    obtain ⟨p, hp, -⟩ := Volume.dir_of_modifiable hmod
    simp [hp]
  have hmj : m < j := by
    by_contra hge
    exact hgone ((ha j hj).1 (by omega)) hnone
  have hnj : n < j := by
    by_contra hge
    exact hgone ((hb j hk).1 (by omega)) (he ▸ hnone)
  have hmn : m = n := by
    rcases Nat.lt_trichotomy m n with hlt | heq | hgt
    · have habsent := (ha (m + 1) (by omega)).2 (by omega)
      rw [hlevel (m + 1) (by omega)] at habsent
      exact absurd habsent (hgone ((hb (m + 1) (by omega)).1 (by omega)))
    · exact heq
    · have habsent := (hb (n + 1) (by omega)).2 (by omega)
      rw [← hlevel (n + 1) (by omega)] at habsent
      exact absurd habsent (hgone ((ha (n + 1) (by omega)).1 (by omega)))
  subst hmn
  exact ⟨rfl, by omega, by omega, by simp only [Move.path, hsame (m + 1) (by omega)]⟩

theorem race_lost (hs : Scene cwd base t mvs) {j k : ℕ} (hj : j ≤ (mvs true).parents.length)
    (hk : k ≤ (mvs false).parents.length)
    (he : (mvs true).level cwd base j = (mvs false).level cwd base k)
    (hnone : t.node ((mvs true).level cwd base j) = none) :
    Lost cwd base t mvs := by
  obtain ⟨m, -, hm⟩ := (hs.ready true).exists_made hs.base_ready
  obtain ⟨n, -, hn⟩ := (hs.ready false).exists_made hs.base_ready
  obtain ⟨rfl, hlt, hlt', hpath⟩ := shared_top hj hk he hnone hm hn
  have hhinge (i : Bool) : ((start base t mvs).proc i).HingesOn (answer cwd) (start base t mvs).state
      (.mkdir ((mvs true).path base (m + 1)) 0o775) (-1) := by
    cases i with
    | true => exact mvfile_hinges hs.base_ready (hs.ready true) hm hlt
    | false =>
      rw [hpath]
      exact mvfile_hinges hs.base_ready (hs.ready false) hn hlt'
  obtain ⟨schedule, i, hret⟩ := interleave_race hhinge (fun hok ↦ mkdir_once hok)
  refine ⟨schedule ++ rest base mvs, complete_rest schedule, i, fun hpub ↦ ?_⟩
  have hres := hpub.1
  rw [interleave_append, interleave_ret hret] at hres
  cases hres

variable (cwd base t mvs) in
theorem interleave_second (i : Bool) :
    let first := List.replicate (mvfile (mvs !i).src ((mvs !i).dst base)).depth (!i)
    let second := List.replicate (mvfile (mvs i).src ((mvs i).dst base)).depth i
    let u := (interleave (answer cwd) (start base t mvs) first).state
    let out := (mvfile (mvs i).src ((mvs i).dst base)).exec (answer cwd) u
    Complete base mvs (first ++ second) ∧
      (interleave (answer cwd) (start base t mvs) (first ++ second)).proc i = .ret out.1 ∧
      (interleave (answer cwd) (start base t mvs) (first ++ second)).state = out.2 := by
  intro first second u out
  have hproc : (interleave (answer cwd) (start base t mvs) first).proc i =
      mvfile (mvs i).src ((mvs i).dst base) := by
    rw [interleave_replicate]
    exact Function.update_of_ne (by cases i <;> decide) _ _
  have hrun : interleave (answer cwd) (interleave (answer cwd) (start base t mvs) first) second =
      ⟨out.2, Function.update (interleave (answer cwd) (start base t mvs) first).proc i (.ret out.1)⟩ := by
    rw [interleave_replicate, hproc, Prog.steps_exec _ _ _ _ le_rfl]
  refine ⟨fun k ↦ ?_, ?_, ?_⟩
  · cases i <;> cases k <;> simp [first, second, List.count_replicate]
  · rw [interleave_append, hrun]
    exact Function.update_self _ _ _
  · rw [interleave_append, hrun]

theorem source_replaced (hs : Scene cwd base t mvs) (i : Bool)
    (he : (mvs i).source cwd = (mvs !i).target cwd base) : Lost cwd base t mvs := by
  obtain ⟨hcomplete, hproc, hstate⟩ := interleave_second cwd base t mvs i
  apply lost_of_not_all hcomplete
  intro hall
  have hzero := (hall i).1
  obtain ⟨b, hb⟩ := (hall !i).fileAt hs
  rw [hproc, Prog.result, Option.some.injEq] at hzero
  rw [hstate] at hb
  have hspec := mvfile_spec cwd (mvs i).src ((mvs i).dst base) []
    (interleave (answer cwd) (start base t mvs)
      (List.replicate (mvfile (mvs !i).src ((mvs !i).dst base)).depth (!i))).state
  rw [exec_faulty_nil] at hspec
  rcases hspec with ⟨hr, -⟩ | ⟨-, t₁, s, d, -, hsrc, hdst, hmoved⟩
  · rw [hzero] at hr
    cases hr
  · have hsl : s = (mvs !i).target cwd base := (Volume.entry_lexical hsrc).trans he
    have hdl : d = (mvs i).target cwd base :=
      (Volume.entry_lexical hdst).trans (lexical_dst hs.base_ready (hs.ready i).named)
    have hgone := hmoved.leaves (by rw [hsl, hdl]; exact (hs.ne i).2.symm)
    rw [← hsl, Volume.fileAt, hgone] at hb
    cases hb

theorem nested_lost (hs : Scene cwd base t mvs) (i : Bool)
    (he : (mvs i).target cwd base <:+ (mvs !i).target cwd base) : Lost cwd base t mvs := by
  apply lost_of_not_all (complete_rest [])
  intro hall
  obtain ⟨u, hu⟩ := he
  obtain ⟨b, hb⟩ := (hall i).fileAt hs
  obtain ⟨b', hb'⟩ := (hall !i).fileAt hs
  have hne : u ≠ [] := by
    rintro rfl
    exact (hs.ne i).2 hu
  rw [← hu] at hb'
  obtain ⟨p, hp⟩ := Volume.dir_of_below hne (fun hnone ↦ by
    rw [Volume.fileAt, hnone] at hb'
    cases hb')
  rw [Volume.fileAt, hp] at hb
  cases hb

end Pair

/-- Two workers both publish their files in every interleaving exactly when
their moves are independent. -/
theorem concurrent_moves_iff (hs : Scene cwd base t mvs) :
    (∀ schedule, Complete base mvs schedule → ∀ i, Published cwd base t mvs schedule i) ↔
      Independent cwd base t mvs := by
  constructor
  · intro hall
    have hnone : ¬ Lost cwd base t mvs := by
      rintro ⟨schedule, hc, i, hi⟩
      exact hi (hall schedule hc i)
    refine ⟨fun j hj k hk he hmissing ↦ ?_, fun i he ↦ ?_, fun i he ↦ ?_⟩
    · exact hnone (race_lost hs hj hk he hmissing)
    · exact hnone (source_replaced hs i he)
    · exact hnone (nested_lost hs i he)
  · exact fun h ↦ published_of_independent hs h

section Race

def twoDownloads : Volume ℕ :=
  let made := (mkdir [] "/s/tmp".toList 0o700 (mkdir [] "/s".toList 0o755 Volume.bare).2).2
  storeFile (storeFile made ["x".toList, "tmp".toList, "s".toList] (Perm.ofMode 0o644) 1)
    ["y".toList, "tmp".toList, "s".toList] (Perm.ofMode 0o644) 2

def twoMoves (same i : Bool) : Move :=
  if i then ⟨"/s/tmp/x".toList, ["n1".toList, "0".toList, "0".toList], "1.mp3".toList⟩
  else ⟨"/s/tmp/y".toList, [if same then "n1".toList else "n2".toList, "7".toList, "0".toList],
    "2.mp3".toList⟩

theorem scene_twoMoves (same : Bool) : Scene [] "/s".toList twoDownloads (twoMoves same) := by
  have hnamed : ∀ same i, (twoMoves same i).Named := by decide +kernel
  have hfound : ∀ same i, twoDownloads.entry [] (twoMoves same i).src =
      some ((twoMoves same i).source []) := by decide +kernel
  have hfile : ∀ same i, twoDownloads.node ((twoMoves same i).source []) =
      some (.file (Perm.ofMode 0o644) (if i then 1 else 2)) := by decide +kernel
  have hsource : ∀ same i, twoDownloads.modifiable ((twoMoves same i).source []).tail = true := by
    decide +kernel
  have hparents : ∀ same i, ∀ j ≤ (twoMoves same i).parents.length,
      twoDownloads.node ((twoMoves same i).level [] "/s".toList j) = none ∨
        twoDownloads.modifiable ((twoMoves same i).level [] "/s".toList j) = true := by
    decide +kernel
  have htarget : ∀ same i,
      twoDownloads.isDir ((twoMoves same i).target [] "/s".toList) = false := by decide +kernel
  refine ⟨⟨by decide, by decide +kernel, by decide +kernel⟩, fun i ↦ ?_, ?_, ?_⟩
  · exact ⟨hnamed same i, hfound same i, ⟨_, _, hfile same i, by decide⟩, hsource same i,
      hparents same i, htarget same i⟩
  · revert same
    decide +kernel
  · revert same
    decide +kernel

theorem concurrent_moves_iff_instance :
    let mvs := twoMoves false
    Scene [] "/s".toList twoDownloads mvs ∧ ∀ schedule, Complete "/s".toList mvs schedule →
      ∀ i, Published [] "/s".toList twoDownloads mvs schedule i := by
  have hs := scene_twoMoves false
  have hi : Independent [] "/s".toList twoDownloads (twoMoves false) :=
    ⟨by decide +kernel, by decide +kernel, by decide +kernel⟩
  exact ⟨hs, (concurrent_moves_iff [] "/s".toList twoDownloads _ hs).mpr hi⟩

/-- Both workers find `/s/n1` missing before one of them makes it: the other
gives up. -/
theorem shared_directory_race :
    let mvs := twoMoves true
    let schedule := List.replicate 5 true ++ List.replicate 5 false ++ [true, false] ++
      List.replicate 20 true ++ List.replicate 20 false
    let cfg := interleave (answer []) (start "/s".toList twoDownloads mvs) schedule
    Scene [] "/s".toList twoDownloads mvs ∧ Complete "/s".toList mvs schedule ∧
      (cfg.proc false).result = some (-1) ∧
      cfg.state.content [] ((mvs false).dst "/s".toList) = none := by
  refine ⟨scene_twoMoves true, ?_, by decide +kernel, by decide +kernel⟩
  intro i
  cases i <;> decide +kernel

end Race

end Calcsig.Store.ConcurrentMoves
