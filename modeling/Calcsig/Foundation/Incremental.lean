import Mathlib.Data.List.Basic
import Mathlib.Order.Basic
import Mathlib.Tactic.Common

namespace Calcsig.Foundation.Incremental

variable {σ α β ε : Type}

/-- What a reader does with the input at hand: it takes a part of it and goes on,
perhaps with a result; it takes a part of it and waits for more; or it gives
up. -/
inductive Outcome (σ α β ε : Type)
  | next (s : σ) (rest : List α) (out : Option β)
  | wait (s : σ) (rest : List α)
  | fail (e : ε)

/-- What a step has decided on some input it decides on every longer input, and
waiting is as good as not having begun. -/
inductive Decided (step : σ → List α → Outcome σ α β ε) (s : σ) (input : List α) : Prop
  | next {s' : σ} {rest : List α} {out : Option β} (shrinks : rest.length < input.length)
      (h : ∀ more, step s (input ++ more) = .next s' (rest ++ more) out)
  | wait {s' : σ} {rest : List α} (here : step s input = .wait s' rest)
      (h : ∀ more, step s (input ++ more) = step s' (rest ++ more))
  | fail {e : ε} (h : ∀ more, step s (input ++ more) = .fail e)

structure Machine (σ α β ε : Type) where
  step : σ → List α → Outcome σ α β ε
  decided : ∀ s input, Decided step s input

namespace Machine

variable (M : Machine σ α β ε)

/-- The results that come out of the input, and what is left: a state with unread
input, or an error. -/
def consumeWithin : ℕ → σ → List α → List β × Except ε (σ × List α)
  | 0, s, input => ([], .ok (s, input))
  | n + 1, s, input =>
    match M.step s input with
    | .next s' rest out =>
      let later := consumeWithin n s' rest
      (out.toList ++ later.1, later.2)
    | .wait s' rest => ([], .ok (s', rest))
    | .fail e => ([], .error e)

def consume (s : σ) (input : List α) : List β × Except ε (σ × List α) :=
  M.consumeWithin (input.length + 1) s input

def resume (before : List β × Except ε (σ × List α)) (more : List α) :
    List β × Except ε (σ × List α) :=
  match before.2 with
  | .ok (s, rest) =>
    let later := M.consume s (rest ++ more)
    (before.1 ++ later.1, later.2)
  | .error e => (before.1, .error e)

def feed (before : List β × Except ε (σ × List α)) (chunks : List (List α)) :
    List β × Except ε (σ × List α) := chunks.foldl M.resume before

variable {M} {s s' : σ} {input rest : List α} {out : Option β} {e : ε}

theorem shrinks (h : M.step s input = .next s' rest out) : rest.length < input.length := by
  cases M.decided s input with
  | next hlt hstep =>
    have := hstep []
    rw [List.append_nil, List.append_nil, h] at this
    obtain ⟨-, rfl, -⟩ := Outcome.next.inj this
    exact hlt
  | wait hstep _ => rw [h] at hstep; cases hstep
  | fail hstep =>
    have := hstep []
    rw [List.append_nil, h] at this
    cases this

theorem consumeWithin_stable {n n' : ℕ} (hn : input.length < n) (hn' : input.length < n') :
    M.consumeWithin n s input = M.consumeWithin n' s input := by
  induction n generalizing n' s input with
  | zero => omega
  | succ n ih =>
    cases n' with
    | zero => omega
    | succ n' =>
      cases h : M.step s input with
      | next s' rest out =>
        have hlt := shrinks h
        simp only [consumeWithin, h, ih (show rest.length < n by omega) (show rest.length < n' by omega)]
      | wait s' rest => simp only [consumeWithin, h]
      | fail e => simp only [consumeWithin, h]

theorem consume_next (h : M.step s input = .next s' rest out) :
    M.consume s input = (out.toList ++ (M.consume s' rest).1, (M.consume s' rest).2) := by
  simp only [consume, consumeWithin, h,
    consumeWithin_stable (M := M) (s := s') (shrinks h) (Nat.lt_succ_self rest.length)]

theorem consume_wait (h : M.step s input = .wait s' rest) :
    M.consume s input = ([], .ok (s', rest)) := by
  simp only [consume, consumeWithin, h]

theorem consume_fail (h : M.step s input = .fail e) : M.consume s input = ([], .error e) := by
  simp only [consume, consumeWithin, h]

theorem consume_congr (h : M.step s input = M.step s' rest) : M.consume s input = M.consume s' rest := by
  cases hstep : M.step s' rest with
  | next s₁ rest₁ out₁ => rw [consume_next (h.trans hstep), consume_next hstep]
  | wait s₁ rest₁ => rw [consume_wait (h.trans hstep), consume_wait hstep]
  | fail e => rw [consume_fail (h.trans hstep), consume_fail hstep]

theorem consume_append (s : σ) (input more : List α) :
    M.consume s (input ++ more) = M.resume (M.consume s input) more := by
  induction hn : input.length using Nat.strongRecOn generalizing s input with
  | ind n ih =>
    cases M.decided s input with
    | @next s' rest out hlt hstep =>
      have hhere := hstep []
      rw [List.append_nil, List.append_nil] at hhere
      rw [consume_next (hstep more), consume_next hhere, ih rest.length (hn ▸ hlt) s' rest rfl]
      unfold resume
      cases (M.consume s' rest).2 with
      | ok p => simp
      | error e => rfl
    | wait hhere hstep =>
      rw [consume_congr (hstep more), consume_wait hhere]
      simp [resume]
    | fail hstep =>
      have hhere := hstep []
      rw [List.append_nil] at hhere
      rw [consume_fail (hstep more), consume_fail hhere, resume]

theorem resume_cons (b : β) (out : List β) (left : Except ε (σ × List α)) (more : List α) :
    M.resume (b :: out, left) more =
      (b :: (M.resume (out, left) more).1, (M.resume (out, left) more).2) := by
  unfold resume
  cases left <;> rfl

theorem wait_settled (h : M.step s input = .wait s' rest) : M.step s' rest = .wait s' rest := by
  cases M.decided s input with
  | next _ hstep =>
    have := hstep []
    rw [List.append_nil, h] at this
    cases this
  | wait hhere hstep =>
    have := hstep []
    rw [List.append_nil, List.append_nil, h] at this
    obtain ⟨rfl, rfl⟩ := Outcome.wait.inj (h.symm.trans hhere)
    exact this.symm
  | fail hstep =>
    have := hstep []
    rw [List.append_nil, h] at this
    cases this

theorem consume_settled (h : (M.consume s input).2 = .ok (s', rest)) :
    M.step s' rest = .wait s' rest := by
  induction hn : input.length using Nat.strongRecOn generalizing s input with
  | ind n ih =>
    cases hstep : M.step s input with
    | next s₁ rest₁ out =>
      rw [consume_next hstep] at h
      exact ih rest₁.length (hn ▸ shrinks hstep) h rfl
    | wait s₁ rest₁ =>
      rw [consume_wait hstep] at h
      cases h
      exact wait_settled hstep
    | fail e =>
      rw [consume_fail hstep] at h
      cases h

/-- However a stream is cut into chunks, the reader gives the same results and
ends in the same state. -/
theorem feed_consume (s : σ) (input : List α) (chunks : List (List α)) :
    M.feed (M.consume s input) chunks = M.consume s (input ++ chunks.flatten) := by
  induction chunks generalizing input with
  | nil => simp [feed]
  | cons c chunks ih =>
    rw [feed, List.foldl_cons, ← consume_append, List.flatten_cons, ← List.append_assoc, ← ih]
    rfl

end Machine

end Calcsig.Foundation.Incremental
