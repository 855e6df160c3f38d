import Calcsig.Foundation.Programs
import Mathlib.Logic.Function.Basic

namespace Calcsig.Foundation.Interleavings

open Programs

variable {κ σ α β ι : Type}

variable [DecidableEq ι]

structure Config (κ σ α ι : Type) where
  state : σ
  proc : ι → Prog κ α

def turn (answer : κ → σ → Bool × σ) (cfg : Config κ σ α ι) (i : ι) : Config κ σ α ι :=
  match cfg.proc i with
  | .ret _ => cfg
  | .call c next =>
    ⟨(answer c cfg.state).2, Function.update cfg.proc i (next (answer c cfg.state).1)⟩

def interleave (answer : κ → σ → Bool × σ) (cfg : Config κ σ α ι) (schedule : List ι) :
    Config κ σ α ι := schedule.foldl (turn answer) cfg

variable {answer : κ → σ → Bool × σ}

theorem turn_ret {cfg : Config κ σ α ι} {i : ι} {a : α} (h : cfg.proc i = .ret a) :
    turn answer cfg i = cfg := by
  simp only [turn, h]

theorem turn_call {cfg : Config κ σ α ι} {i : ι} {c : κ} {next : Bool → Prog κ α}
    (h : cfg.proc i = .call c next) :
    turn answer cfg i =
      ⟨(answer c cfg.state).2, Function.update cfg.proc i (next (answer c cfg.state).1)⟩ := by
  simp only [turn, h]

theorem turn_proc_ne (cfg : Config κ σ α ι) {i j : ι} (h : j ≠ i) :
    (turn answer cfg i).proc j = cfg.proc j := by
  cases hp : cfg.proc i with
  | ret a => rw [turn_ret hp]
  | call c next => rw [turn_call hp]; exact Function.update_of_ne h _ _

theorem interleave_append (cfg : Config κ σ α ι) (s s' : List ι) :
    interleave answer cfg (s ++ s') = interleave answer (interleave answer cfg s) s' :=
  List.foldl_append

/-- Rely and guarantee: if each process's own call keeps what is asserted of it
and does no more to the state than it guarantees, and no assertion is upset
by what the other processes guarantee, then the assertions hold throughout. -/
theorem interleave_assert {P : ι → σ → Prog κ α → Prop} {G : ι → σ → σ → Prop}
    (hown : ∀ i c next s, P i s (.call c next) →
      G i s (answer c s).2 ∧ P i (answer c s).2 (next (answer c s).1))
    (hstable : ∀ i j s s' p, j ≠ i → G j s s' → P i s p → P i s' p)
    (cfg : Config κ σ α ι) (hcfg : ∀ i, P i cfg.state (cfg.proc i)) (schedule : List ι) (i : ι) :
    P i (interleave answer cfg schedule).state ((interleave answer cfg schedule).proc i) := by
  induction schedule generalizing cfg with
  | nil => exact hcfg i
  | cons j schedule ih =>
    refine ih (turn answer cfg j) (fun k ↦ ?_)
    cases hp : cfg.proc j with
    | ret a => rw [turn_ret hp]; exact hcfg k
    | call c next =>
      obtain ⟨hG, hP⟩ := hown j c next cfg.state (hp ▸ hcfg j)
      rw [turn_call hp]
      by_cases hk : k = j
      · subst k
        simpa only [Function.update_self] using hP
      · simpa only [Function.update_of_ne hk] using
          hstable k j cfg.state _ (cfg.proc k) (Ne.symm hk) hG (hcfg k)

theorem interleave_ret {cfg : Config κ σ α ι} {i : ι} {a : α} (h : cfg.proc i = .ret a)
    (schedule : List ι) : (interleave answer cfg schedule).proc i = .ret a := by
  induction schedule generalizing cfg with
  | nil => exact h
  | cons j schedule ih =>
    apply ih
    by_cases hj : i = j
    · rw [← hj, turn_ret h, h]
    · rw [turn_proc_ne cfg hj, h]

theorem interleave_finishes (cfg : Config κ σ α ι) (i : ι) (schedule : List ι)
    (h : (cfg.proc i).depth ≤ schedule.count i) :
    ∃ a, (interleave answer cfg schedule).proc i = .ret a := by
  induction schedule generalizing cfg with
  | nil =>
    cases hp : cfg.proc i with
    | ret a => exact ⟨a, hp⟩
    | call c next => simp [hp, Prog.depth] at h
  | cons j schedule ih =>
    apply ih (turn answer cfg j)
    by_cases hj : i = j
    · subst j
      rw [List.count_cons_self] at h
      cases hp : cfg.proc i with
      | ret a => simp [turn_ret hp, hp, Prog.depth]
      | call c next =>
        have hd := Prog.depth_next c next (answer c cfg.state).1
        rw [hp] at h
        simp only [turn_call hp, Function.update_self]
        omega
    · rw [turn_proc_ne cfg hj]
      rwa [List.count_cons_of_ne (Ne.symm hj)] at h

theorem interleave_replicate (cfg : Config κ σ α ι) (i : ι) (n : ℕ) :
    interleave answer cfg (List.replicate n i) =
      ⟨((cfg.proc i).steps answer n cfg.state).2,
        Function.update cfg.proc i ((cfg.proc i).steps answer n cfg.state).1⟩ := by
  induction n generalizing cfg with
  | zero => simp [interleave, Prog.steps]
  | succ n ih =>
    change interleave answer (turn answer cfg i) (List.replicate n i) = _
    rw [ih]
    cases hp : cfg.proc i with
    | ret a => simp only [turn_ret hp, hp, Prog.steps_ret]
    | call c next => simp only [turn_call hp, Function.update_self, Function.update_idem, Prog.steps]

theorem interleave_race {cfg : Config κ σ α Bool} {c : κ} {a : α}
    (h : ∀ i, (cfg.proc i).HingesOn answer cfg.state c a)
    (honce : (answer c cfg.state).1 = true → (answer c (answer c cfg.state).2).1 = false) :
    ∃ schedule i, (interleave answer cfg schedule).proc i = .ret a := by
  obtain ⟨n, next, hsteps, hfail⟩ := h true
  obtain ⟨n', next', hsteps', hfail'⟩ := h false
  have hcome : interleave answer cfg (List.replicate n true ++ List.replicate n' false) =
      ⟨cfg.state, Function.update (Function.update cfg.proc true (.call c next)) false
        (.call c next')⟩ := by
    rw [interleave_append, interleave_replicate cfg true n, hsteps, interleave_replicate]
    simp only [Function.update_of_ne (show false ≠ true from by decide), hsteps']
  cases hok : (answer c cfg.state).1 with
  | false =>
    refine ⟨List.replicate n true ++ List.replicate n' false ++ [true], true, ?_⟩
    rw [interleave_append, hcome]
    simp [interleave, turn, hok, hfail]
  | true =>
    refine ⟨List.replicate n true ++ List.replicate n' false ++ [true, false], false, ?_⟩
    rw [interleave_append, hcome]
    simp [interleave, turn, honce hok, hfail']

/-- From the state `s`, and after whatever others may have done to it by
`rely`, every call of the program does to the state what `guar` allows, and a
result satisfies `post`. -/
def Within (answer : κ → σ → Bool × σ) (rely guar : σ → σ → Prop) (post : α → σ → Prop) :
    Prog κ α → σ → Prop
  | .ret a, s => ∀ s', rely s s' → post a s'
  | .call c next, s => ∀ s', rely s s' →
      guar s' (answer c s').2 ∧ Within answer rely guar post (next (answer c s').1) (answer c s').2

section Rules

variable {rely guar : σ → σ → Prop} {post : α → σ → Prop} {post' : β → σ → Prop}

theorem Within.stable (htrans : ∀ s t u, rely s t → rely t u → rely s u) {p : Prog κ α} {s s' : σ}
    (h : Within answer rely guar post p s) (hs : rely s s') :
    Within answer rely guar post p s' := by
  cases p with
  | ret a => exact fun t ht ↦ h t (htrans s s' t hs ht)
  | call c next => exact fun t ht ↦ h t (htrans s s' t hs ht)

theorem Within.bind (hrefl : ∀ s, rely s s) {p : Prog κ α} {f : α → Prog κ β} {s : σ}
    (h : Within answer rely guar post p s)
    (hf : ∀ a s, post a s → Within answer rely guar post' (f a) s) :
    Within answer rely guar post' (p.bind f) s := by
  induction p generalizing s with
  | ret a => exact hf a s (h s (hrefl s))
  | call c next ih => exact fun s' hs ↦ ⟨(h s' hs).1, ih _ (h s' hs).2⟩

end Rules

/-- Processes of which each relies on no more than the others guarantee reach
their postconditions in every interleaving. -/
theorem interleave_within {rely guar : ι → σ → σ → Prop} {post : ι → α → σ → Prop}
    (cfg : Config κ σ α ι)
    (hcfg : ∀ i, Within answer (rely i) (guar i) (post i) (cfg.proc i) cfg.state)
    (hrefl : ∀ i s, rely i s s) (htrans : ∀ i s t u, rely i s t → rely i t u → rely i s u)
    (hguar : ∀ i j s s', j ≠ i → guar j s s' → rely i s s') (schedule : List ι) (i : ι) {a : α}
    (ha : (interleave answer cfg schedule).proc i = .ret a) :
    post i a (interleave answer cfg schedule).state := by
  have h : Within answer (rely i) (guar i) (post i) ((interleave answer cfg schedule).proc i)
      (interleave answer cfg schedule).state := interleave_assert
    (P := fun i s p ↦ Within answer (rely i) (guar i) (post i) p s) (G := guar)
    (fun i c next s h ↦ h s (hrefl i s))
    (fun i j s s' p hij hg h ↦ h.stable (htrans i) (hguar i j s s' hij hg)) cfg hcfg schedule i
  rw [ha] at h
  exact h _ (hrefl i _)

/-- Every call of the program keeps the invariant and is good where the invariant
holds, whichever calls are refused. After a call that can only have
succeeded under some condition, the condition may be used. -/
def Keeps (answer : κ → σ → Bool × σ) (I : σ → Prop) (Good : κ → σ → Prop) : Prog κ α → Prop
  | .ret _ => True
  | .call c next => (∀ s, I s → I (answer c s).2 ∧ Good c s) ∧ Keeps answer I Good (next false) ∧
      ∀ s, I s → (answer c s).1 = true → Keeps answer I Good (next true)

section Keeping

variable {I : σ → Prop} {Good : κ → σ → Prop}

theorem Keeps.bind {p : Prog κ α} {f : α → Prog κ β} (hp : Keeps answer I Good p)
    (hf : ∀ a, Keeps answer I Good (f a)) : Keeps answer I Good (p.bind f) := by
  induction p with
  | ret a => exact hf a
  | call c next ih =>
    exact ⟨hp.1, ih false hp.2.1, fun s hs hok ↦ ih true (hp.2.2 s hs hok)⟩

theorem Keeps.mapCall {κ' : Type} {answer' : κ' → σ → Bool × σ} {Good' : κ' → σ → Prop} {f : κ → κ'}
    (hanswer : ∀ c, answer' (f c) = answer c) (hgood : ∀ c s, Good c s → Good' (f c) s)
    {p : Prog κ α} (h : Keeps answer I Good p) : Keeps answer' I Good' (p.mapCall f) := by
  induction p with
  | ret a => trivial
  | call c next ih =>
    refine ⟨fun s hs ↦ ?_, ih false h.2.1, fun s hs hok ↦ ?_⟩
    · rw [hanswer]
      exact (h.1 s hs).imp_right (hgood c s)
    · rw [hanswer] at hok
      exact ih true (h.2.2 s hs hok)

theorem Keeps.next {c : κ} {next : Bool → Prog κ α} (h : Keeps answer I Good (.call c next))
    {s : List Bool × σ} (hs : I s.2) :
    I (faulty answer c s).2.2 ∧ Keeps answer I Good (next (faulty answer c s).1) := by
  obtain ⟨hcall, hfalse, htrue⟩ := h
  rcases faulty_cases answer c s with ⟨hr, he⟩ | ⟨hr, he⟩
  · rw [hr, he]
    exact ⟨hs, hfalse⟩
  · rw [hr, he]
    refine ⟨(hcall s.2 hs).1, ?_⟩
    cases hok : (answer c s.2).1 with
    | false => exact hfalse
    | true => exact htrue s.2 hs hok

theorem interleave_keeps (cfg : Config κ (List Bool × σ) α ι) (hs : I cfg.state.2)
    (hproc : ∀ i, Keeps answer I Good (cfg.proc i)) (schedule : List ι) (i : ι) :
    I (interleave (faulty answer) cfg schedule).state.2 ∧
      Keeps answer I Good ((interleave (faulty answer) cfg schedule).proc i) :=
  interleave_assert (P := fun _ s p ↦ I s.2 ∧ Keeps answer I Good p) (G := fun _ _ s' ↦ I s'.2)
    (fun _ _ _ _ h ↦ ⟨(h.2.next h.1).1, h.2.next h.1⟩) (fun _ _ _ _ _ _ hg h ↦ ⟨hg, h.2⟩) cfg
    (fun i ↦ ⟨hs, hproc i⟩) schedule i

end Keeping

end Calcsig.Foundation.Interleavings
