import Mathlib.Data.List.Basic
import Mathlib.Order.Basic
import Mathlib.Tactic.Common

namespace Calcsig.Foundation.Runs

variable {σ ε : Type} (step : σ → ε → σ)

def run (s : σ) (es : List ε) : σ := es.foldl step s

/-- Every step of the run meets the condition in the state it starts from. -/
def Along (C : σ → ε → Prop) : σ → List ε → Prop
  | _, [] => True
  | s, e :: es => C s e ∧ Along C (step s e) es

/-- The condition holds in every state of the run. -/
def Throughout (P : σ → Prop) : σ → List ε → Prop
  | s, [] => P s
  | s, e :: es => P s ∧ Throughout P (step s e) es

def tally (f : σ → ε → ℕ) : σ → List ε → ℕ
  | _, [] => 0
  | s, e :: es => f s e + tally f (step s e) es

/-- What the steps of a run put out, in order. -/
def trace {β : Type} (out : σ → ε → List β) : σ → List ε → List β
  | _, [] => []
  | s, e :: es => out s e ++ trace out (step s e) es

instance decidableAlong (C : σ → ε → Prop) [∀ s e, Decidable (C s e)] :
    (s : σ) → (es : List ε) → Decidable (Along step C s es)
  | _, [] => inferInstanceAs (Decidable True)
  | s, e :: es =>
    have := decidableAlong C (step s e) es
    inferInstanceAs (Decidable (C s e ∧ Along step C (step s e) es))

variable {step}

theorem tally_eq_zero_iff {f : σ → ε → ℕ} {s : σ} {es : List ε} :
    tally step f s es = 0 ↔ Along step (fun s e ↦ f s e = 0) s es := by
  induction es generalizing s with
  | nil => simp [tally, Along]
  | cons e es ih => simp only [tally, Along, Nat.add_eq_zero_iff, ih]

theorem run_tally {C : σ → ε → Prop} {f : σ → ε → ℕ} {I : σ → ℕ → Prop}
    (hstep : ∀ s n e, I s n → C s e → I (step s e) (n + f s e)) {s : σ} {n : ℕ} {es : List ε}
    (hs : I s n) (hr : Along step C s es) : I (run step s es) (n + tally step f s es) := by
  induction es generalizing s n with
  | nil => exact hs
  | cons e es ih =>
    have h := ih (hstep s n e hs hr.1) hr.2
    rwa [Nat.add_assoc] at h

theorem run_append (s : σ) (es fs : List ε) : run step s (es ++ fs) = run step (run step s es) fs :=
  List.foldl_append

theorem trace_append {β : Type} (out : σ → ε → List β) (s : σ) (es fs : List ε) :
    trace step out s (es ++ fs) = trace step out s es ++ trace step out (run step s es) fs := by
  induction es generalizing s with
  | nil => rfl
  | cons e es ih =>
    rw [List.cons_append, trace, ih, trace, List.append_assoc]
    rfl

theorem run_trace {β : Type} {C : σ → ε → Prop} {out : σ → ε → List β} {I : σ → List β → Prop}
    (hstep : ∀ s l e, I s l → C s e → I (step s e) (l ++ out s e)) {s : σ} {l : List β}
    {es : List ε} (hs : I s l) (hr : Along step C s es) :
    I (run step s es) (l ++ trace step out s es) := by
  induction es generalizing s l with
  | nil => exact (List.append_nil l).symm ▸ hs
  | cons e es ih =>
    have h := ih (hstep s l e hs hr.1) hr.2
    rwa [List.append_assoc] at h

theorem run_keeps {I : σ → Prop} (hstep : ∀ s e, I s → I (step s e)) {s : σ} (hs : I s)
    (es : List ε) : I (run step s es) := by
  induction es generalizing s with
  | nil => exact hs
  | cons e es ih => exact ih (hstep s e hs)

/-- First in, first out over a whole run: what was inside and what came in is
what went out and what is inside. -/
theorem trace_fifo {β : Type} (inside : σ → List β) {ins outs : σ → ε → List β} {I : σ → Prop}
    (hkeep : ∀ s e, I s → I (step s e))
    (hstep : ∀ s e, I s → inside s ++ ins s e = outs s e ++ inside (step s e)) {s : σ} (hs : I s)
    (es : List ε) :
    inside s ++ trace step ins s es = trace step outs s es ++ inside (run step s es) := by
  induction es generalizing s with
  | nil => exact List.append_nil _
  | cons e es ih =>
    calc inside s ++ (ins s e ++ trace step ins (step s e) es)
        = outs s e ++ (inside (step s e) ++ trace step ins (step s e) es) := by
          rw [← List.append_assoc, hstep s e hs, List.append_assoc]
      _ = outs s e ++ (trace step outs (step s e) es ++ inside (run step (step s e) es)) := by
          rw [ih (hkeep s e hs)]
      _ = outs s e ++ trace step outs (step s e) es ++ inside (run step (step s e) es) :=
          (List.append_assoc _ _ _).symm

/-- Conservation over a whole run: what was inside and what came in is what went
out and what is inside, in some order. -/
theorem trace_perm {β : Type} (inside : σ → List β) {ins outs : σ → ε → List β}
    (hstep : ∀ s e, (inside s ++ ins s e).Perm (outs s e ++ inside (step s e))) (s : σ)
    (es : List ε) :
    (inside s ++ trace step ins s es).Perm (trace step outs s es ++ inside (run step s es)) := by
  induction es generalizing s with
  | nil => exact .of_eq (List.append_nil _)
  | cons e es ih =>
    have hfirst := (hstep s e).append_right (trace step ins (step s e) es)
    have hrest := (ih (step s e)).append_left (outs s e)
    rw [List.append_assoc] at hfirst
    rw [← List.append_assoc, ← List.append_assoc] at hrest
    exact hfirst.trans hrest

theorem tally_le {C : σ → ε → Prop} {I : σ → Prop} (inside : σ → ℕ) (ins outs : σ → ε → ℕ)
    (hkeep : ∀ s e, I s → C s e → I (step s e))
    (hstep : ∀ s e, I s → C s e → outs s e + inside (step s e) ≤ inside s + ins s e) {s : σ}
    (hs : I s) {es : List ε} (hr : Along step C s es) :
    tally step outs s es + inside (run step s es) ≤ inside s + tally step ins s es := by
  induction es generalizing s with
  | nil => simp [tally, run]
  | cons e es ih =>
    have hfirst := hstep s e hs hr.1
    have hrest := ih (hkeep s e hs hr.1) hr.2
    have hrun : run step s (e :: es) = run step (step s e) es := rfl
    rw [hrun, tally, tally]
    omega

theorem along_of_forall {C : σ → ε → Prop} {es : List ε} (h : ∀ e ∈ es, ∀ s, C s e) (s : σ) :
    Along step C s es := by
  induction es generalizing s with
  | nil => trivial
  | cons e es ih =>
    exact ⟨h e List.mem_cons_self s, ih (fun e' he' ↦ h e' (List.mem_cons_of_mem e he')) _⟩

theorem Throughout.first {P : σ → Prop} {s : σ} {es : List ε} (h : Throughout step P s es) :
    P s := by
  cases es with
  | nil => exact h
  | cons e es => exact h.1

theorem throughout_of_invariant {C : σ → ε → Prop} {I P : σ → Prop} (hsafe : ∀ s, I s → P s)
    (hstep : ∀ s e, I s → C s e → I (step s e)) {s : σ} {es : List ε} (hs : I s)
    (hr : Along step C s es) : Throughout step P s es := by
  induction es generalizing s with
  | nil => exact hsafe s hs
  | cons e es ih => exact ⟨hsafe s hs, ih (hstep s e hs hr.1) hr.2⟩

/-- If good steps lead from one safe state to the next and every other step
breaks the condition at once, then the condition holds throughout exactly
the runs of good steps. -/
theorem throughout_iff_along_of {D P : σ → Prop} {A C : σ → ε → Prop} (hsafe : ∀ s, D s → P s)
    (hgood : ∀ s e, D s → A s e → C s e → D (step s e))
    (hbad : ∀ s e, D s → A s e → ¬ C s e → ¬ P (step s e)) {s : σ} (hs : D s) {es : List ε}
    (hr : Along step A s es) : Throughout step P s es ↔ Along step C s es := by
  induction es generalizing s with
  | nil => exact iff_of_true (hsafe s hs) trivial
  | cons e es ih =>
    constructor
    · intro h
      have hc : C s e := by
        by_contra hc
        exact hbad s e hs hr.1 hc h.2.first
      exact ⟨hc, (ih (hgood s e hs hr.1 hc) hr.2).mp h.2⟩
    · intro h
      exact ⟨hsafe s hs, (ih (hgood s e hs hr.1 h.1) hr.2).mpr h.2⟩

theorem throughout_iff_along {D P : σ → Prop} {C : σ → ε → Prop} (hsafe : ∀ s, D s → P s)
    (hgood : ∀ s e, D s → C s e → D (step s e)) (hbad : ∀ s e, D s → ¬ C s e → ¬ P (step s e))
    {s : σ} (hs : D s) (es : List ε) : Throughout step P s es ↔ Along step C s es :=
  throughout_iff_along_of (A := fun _ _ ↦ True) hsafe (fun s e hd _ ↦ hgood s e hd)
    (fun s e hd _ ↦ hbad s e hd) hs (along_of_forall (fun _ _ _ ↦ trivial) s)

theorem run_invariant {C : σ → ε → Prop} {I : σ → Prop} (hstep : ∀ s e, I s → C s e → I (step s e))
    {s : σ} {es : List ε} (hs : I s) (hr : Along step C s es) : I (run step s es) := by
  induction es generalizing s with
  | nil => exact hs
  | cons e es ih => exact ih (hstep s e hs hr.1) hr.2

theorem along_of_invariant {C D : σ → ε → Prop} {I : σ → Prop}
    (hstep : ∀ s e, I s → C s e → D s e → I (step s e)) (hcond : ∀ s e, I s → C s e → D s e)
    {s : σ} {es : List ε} (hs : I s) (hr : Along step C s es) : Along step D s es := by
  induction es generalizing s with
  | nil => trivial
  | cons e es ih =>
    have hd := hcond s e hs hr.1
    exact ⟨hd, ih (hstep s e hs hr.1 hd) hr.2⟩

theorem along_append {C : σ → ε → Prop} {s : σ} {es fs : List ε} :
    Along step C s (es ++ fs) ↔ Along step C s es ∧ Along step C (run step s es) fs := by
  induction es generalizing s with
  | nil => simp [Along, run]
  | cons e es ih =>
    rw [List.cons_append, Along, Along, ih, and_assoc]
    rfl

theorem along_or_first (C : σ → ε → Prop) (s : σ) (es : List ε) :
    Along step C s es ∨ ∃ before e rest, es = before ++ e :: rest ∧ Along step C s before ∧
      ¬ C (run step s before) e := by
  induction es generalizing s with
  | nil => exact .inl trivial
  | cons e es ih =>
    by_cases hc : C s e
    · rcases ih (step s e) with h | ⟨before, e', rest, rfl, hbefore, hfail⟩
      · exact .inl ⟨hc, h⟩
      · exact .inr ⟨e :: before, e', rest, rfl, ⟨hc, hbefore⟩, hfail⟩
    · exact .inr ⟨[], e, es, rfl, trivial, hc⟩

theorem Along.and {C D : σ → ε → Prop} {s : σ} {es : List ε} (hc : Along step C s es)
    (hd : Along step D s es) : Along step (fun s e ↦ C s e ∧ D s e) s es := by
  induction es generalizing s with
  | nil => trivial
  | cons e es ih => exact ⟨⟨hc.1, hd.1⟩, ih hc.2 hd.2⟩

end Calcsig.Foundation.Runs
