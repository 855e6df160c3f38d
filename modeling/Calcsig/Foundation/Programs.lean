import Mathlib.Data.List.Basic
import Mathlib.Order.Basic
import Mathlib.Tactic.Common

namespace Calcsig.Foundation.Programs

variable {κ κ' σ α β : Type}

/-- A sequential program that reaches its surroundings only through calls,
each answered by whether it succeeded. -/
inductive Prog (κ α : Type)
  | ret : α → Prog κ α
  | call : κ → (Bool → Prog κ α) → Prog κ α

namespace Prog

def bind : Prog κ α → (α → Prog κ β) → Prog κ β
  | ret a, f => f a
  | call c next, f => call c (fun ok ↦ (next ok).bind f)

@[simp] theorem ret_bind (a : α) (f : α → Prog κ β) : (ret a).bind f = f a := rfl

@[simp] theorem call_bind (c : κ) (next : Bool → Prog κ α) (f : α → Prog κ β) :
    (call c next).bind f = call c (fun ok ↦ (next ok).bind f) := rfl

def exec (answer : κ → σ → Bool × σ) : Prog κ α → σ → α × σ
  | ret a, s => (a, s)
  | call c next, s => (next (answer c s).1).exec answer (answer c s).2

@[simp] theorem exec_ret (answer : κ → σ → Bool × σ) (a : α) (s : σ) :
    (ret a : Prog κ α).exec answer s = (a, s) := rfl

@[simp] theorem exec_call (answer : κ → σ → Bool × σ) (c : κ) (next : Bool → Prog κ α) (s : σ) :
    (call c next).exec answer s = (next (answer c s).1).exec answer (answer c s).2 := rfl

theorem exec_bind (answer : κ → σ → Bool × σ) (p : Prog κ α) (f : α → Prog κ β) (s : σ) :
    (p.bind f).exec answer s = (f (p.exec answer s).1).exec answer (p.exec answer s).2 := by
  induction p generalizing s with
  | ret a => rfl
  | call c next ih => exact ih _ _

def mapCall (f : κ → κ') : Prog κ α → Prog κ' α
  | ret a => ret a
  | call c next => call (f c) (fun ok ↦ (next ok).mapCall f)

theorem exec_mapCall {answer : κ → σ → Bool × σ} {answer' : κ' → σ → Bool × σ} {f : κ → κ'}
    (hf : ∀ c, answer' (f c) = answer c) (p : Prog κ α) (s : σ) :
    (p.mapCall f).exec answer' s = p.exec answer s := by
  induction p generalizing s with
  | ret a => rfl
  | call c next ih =>
    rw [mapCall, exec_call, exec_call, hf]
    exact ih _ _

def Only (P : κ → Prop) : Prog κ α → Prop
  | ret _ => True
  | call c next => P c ∧ ∀ ok, (next ok).Only P

theorem Only.bind {P : κ → Prop} {p : Prog κ α} {f : α → Prog κ β} (hp : p.Only P)
    (hf : ∀ a, (f a).Only P) : (p.bind f).Only P := by
  induction p with
  | ret a => exact hf a
  | call c next ih => exact ⟨hp.1, fun ok ↦ ih ok (hp.2 ok)⟩

theorem exec_related {answer : κ → σ → Bool × σ} {R : σ → σ → Prop} {P : κ → Prop}
    (hrefl : ∀ s, R s s) (htrans : ∀ {s t u}, R s t → R t u → R s u)
    (hcall : ∀ c, P c → ∀ s, R s (answer c s).2) (p : Prog κ α) (hp : p.Only P) (s : σ) :
    R s (p.exec answer s).2 := by
  induction p generalizing s with
  | ret a => exact hrefl s
  | call c next ih => exact htrans (hcall c hp.1 s) (ih _ (hp.2 _) _)

def depth : Prog κ α → ℕ
  | ret _ => 0
  | call _ next => max (next true).depth (next false).depth + 1

theorem depth_next (c : κ) (next : Bool → Prog κ α) (ok : Bool) :
    (next ok).depth < (call c next).depth := by
  cases ok <;> simp only [depth] <;> omega

def result : Prog κ α → Option α
  | ret a => some a
  | call _ _ => none

def steps (answer : κ → σ → Bool × σ) : ℕ → Prog κ α → σ → Prog κ α × σ
  | 0, p, s => (p, s)
  | _ + 1, ret a, s => (ret a, s)
  | n + 1, call c next, s => (next (answer c s).1).steps answer n (answer c s).2

theorem steps_ret (answer : κ → σ → Bool × σ) (n : ℕ) (a : α) (s : σ) :
    (ret a : Prog κ α).steps answer n s = (ret a, s) := by
  cases n <;> rfl

theorem steps_bind {answer : κ → σ → Bool × σ} {n : ℕ} {p : Prog κ α} {s s' : σ} {c : κ}
    {next : Bool → Prog κ α} (h : p.steps answer n s = (call c next, s')) (f : α → Prog κ β) :
    (p.bind f).steps answer n s = ((call c next).bind f, s') := by
  induction n generalizing p s with
  | zero =>
    cases h
    rfl
  | succ n ih =>
    cases p with
    | ret a => cases h
    | call d next' => exact ih h

theorem steps_exec (answer : κ → σ → Bool × σ) (n : ℕ) (p : Prog κ α) (s : σ) (h : p.depth ≤ n) :
    p.steps answer n s = (ret (p.exec answer s).1, (p.exec answer s).2) := by
  induction p generalizing n s with
  | ret a => exact steps_ret answer n a s
  | call c next ih =>
    cases n with
    | zero => simp [depth] at h
    | succ n =>
      have hnext := depth_next c next (answer c s).1
      exact ih _ n _ (by omega)

/-- Without having changed the state the program comes to the call `c`, and it
ends with `a` if that is refused. -/
def HingesOn (answer : κ → σ → Bool × σ) (s : σ) (c : κ) (a : α) (p : Prog κ α) : Prop :=
  ∃ n next, p.steps answer n s = (call c next, s) ∧ next false = ret a

section Hinges

variable {answer : κ → σ → Bool × σ} {s : σ} {c : κ} {a : α}

theorem HingesOn.here {next : Bool → Prog κ α} (h : next false = ret a) :
    (call c next).HingesOn answer s c a := ⟨0, next, rfl, h⟩

theorem HingesOn.after {d : κ} {next : Bool → Prog κ α} (hd : (answer d s).2 = s)
    (h : (next (answer d s).1).HingesOn answer s c a) : (call d next).HingesOn answer s c a := by
  obtain ⟨n, next', hsteps, hfail⟩ := h
  refine ⟨n + 1, next', ?_, hfail⟩
  rw [steps, hd]
  exact hsteps

theorem HingesOn.bind {p : Prog κ α} {f : α → Prog κ β} {b : β} (h : p.HingesOn answer s c a)
    (hf : f a = ret b) : (p.bind f).HingesOn answer s c b := by
  obtain ⟨n, next, hsteps, hfail⟩ := h
  exact ⟨n, _, steps_bind hsteps f, by rw [hfail, ret_bind, hf]⟩

end Hinges

end Prog

/-- Any call may be refused from outside, without effect; the list says which
of the coming calls are. -/
def faulty (answer : κ → σ → Bool × σ) (c : κ) : List Bool × σ → Bool × (List Bool × σ)
  | ([], s) => ((answer c s).1, [], (answer c s).2)
  | (true :: faults, s) => (false, faults, s)
  | (false :: faults, s) => ((answer c s).1, faults, (answer c s).2)

theorem faulty_cases (answer : κ → σ → Bool × σ) (c : κ) (s : List Bool × σ) :
    ((faulty answer c s).1 = false ∧ (faulty answer c s).2.2 = s.2) ∨
      ((faulty answer c s).1 = (answer c s.2).1 ∧ (faulty answer c s).2.2 = (answer c s.2).2) := by
  obtain ⟨faults, s⟩ := s
  match faults with
  | [] => exact .inr ⟨rfl, rfl⟩
  | true :: _ => exact .inl ⟨rfl, rfl⟩
  | false :: _ => exact .inr ⟨rfl, rfl⟩

theorem exec_faulty_nil (answer : κ → σ → Bool × σ) (p : Prog κ α) (s : σ) :
    p.exec (faulty answer) ([], s) = ((p.exec answer s).1, [], (p.exec answer s).2) := by
  induction p generalizing s with
  | ret a => rfl
  | call c next ih => exact ih _ _

end Calcsig.Foundation.Programs
