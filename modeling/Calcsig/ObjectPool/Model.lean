import Calcsig.Foundation.Runs
import Mathlib.Algebra.Order.Ring.Int
import Mathlib.Data.List.Nodup
import Mathlib.Data.List.Perm.Basic

namespace Calcsig.ObjectPool.Model

def int32 (x : ℤ) : ℤ := (BitVec.ofInt 32 x).toInt

def sizeT (x : ℤ) : ℕ := (x % 2 ^ 64).toNat

theorem int32_of_range {x : ℤ} (h : -2 ^ 31 ≤ x) (h' : x < 2 ^ 31) : int32 x = x := by
  rw [int32, BitVec.toInt_ofInt]
  exact Int.bmod_eq_of_le (by omega) (by omega)

theorem int32_lt (x : ℤ) : int32 x < 2 ^ 31 := BitVec.toInt_lt

theorem sizeT_of_range {x : ℤ} (h : 0 ≤ x) (h' : x < 2 ^ 31) : sizeT x = x.toNat := by
  unfold sizeT
  omega

/-- A `shared_ptr` to an object, with the kind of its deleter: either
`auto_create_ptr` or plain deletion. -/
structure Handle where
  object : ℕ
  pooled : Bool
deriving DecidableEq

/-- The fields of the pool, the handles its clients hold, and the objects that
have been constructed and not deleted. -/
structure Pool where
  initNum : ℤ
  curNum : ℤ
  usedNum : ℤ
  maxNum : ℤ
  freeObject : Bool
  userObjectList : List Handle
  held : List Handle
  live : List ℕ
  nextObject : ℕ

inductive GetResult
  | object : Handle → GetResult
  | null
  | threw
  | frontOfEmpty
deriving DecidableEq

namespace Pool

def delete (s : Pool) (t : ℕ) : Pool := { s with live := s.live.erase t }

def construct (s : Pool) : Pool :=
  { s with
    userObjectList := s.userObjectList ++ [⟨s.nextObject, true⟩]
    live := s.live ++ [s.nextObject]
    nextObject := s.nextObject + 1 }

/-- `expand_list`; the optional number is the construction that throws. The
answer is whether one did. -/
def expandList : ℕ → Option ℕ → Pool → Bool × Pool
  | 0, _, s => (false, s)
  | _ + 1, some 0, s => (true, s)
  | n + 1, some (k + 1), s => expandList n (some k) s.construct
  | n + 1, none, s => expandList n none s.construct

def init (num max : ℕ) : Pool :=
  (expandList (int32 num).toNat none
    { initNum := int32 num, curNum := int32 num, usedNum := 0, maxNum := int32 max,
      freeObject := false, userObjectList := [], held := [], live := [], nextObject := 0 }).2

def autoCreatePtr (s : Pool) (t : ℕ) : Pool :=
  if s.freeObject then s.delete t
  else if s.initNum < int32 (s.curNum - s.usedNum) then
    { s.delete t with curNum := int32 (s.curNum - 1), usedNum := int32 (s.usedNum - 1) }
  else
    { s with
      userObjectList := s.userObjectList ++ [⟨t, false⟩]
      usedNum := int32 (s.usedNum - 1) }

def takeFront (s : Pool) : GetResult × Pool :=
  match s.userObjectList with
  | [] => (.frontOfEmpty, s)
  | ptr :: _ =>
    (.object ptr,
      { s with
        userObjectList := s.userObjectList.filter (fun h ↦ h.object ≠ ptr.object)
        usedNum := int32 (s.usedNum + 1) })

def get (s : Pool) (throwAt : Option ℕ) : GetResult × Pool :=
  if s.userObjectList ≠ [] then s.takeFront
  else if s.maxNum ≤ s.curNum then (.null, s)
  else if int32 (s.curNum * 2) ≤ s.maxNum then
    let out := expandList (sizeT s.curNum) throwAt s
    if out.1 then (.threw, out.2)
    else takeFront { out.2 with curNum := int32 (out.2.curNum + out.2.curNum) }
  else
    let out := expandList (sizeT (int32 (s.maxNum - s.curNum))) throwAt s
    if out.1 then (.threw, out.2) else takeFront { out.2 with curNum := out.2.maxNum }

end Pool

/-- A client calls `get`, in which the given construction throws if it is
reached, or drops its last reference to an object. -/
inductive Op
  | get : Option ℕ → Op
  | release : ℕ → Op

def handOut : GetResult × Pool → Pool
  | (.object ptr, s) => { s with held := s.held ++ [ptr] }
  | (_, s) => s

def step (s : Pool) : Op → Pool
  | .get throwAt => handOut (s.get throwAt)
  | .release t =>
    match s.held.find? (fun h ↦ h.object = t) with
    | none => s
    | some h =>
      let s' := { s with held := s.held.erase h }
      if h.pooled then s'.autoCreatePtr h.object else s'.delete h.object

namespace Pool

def grow (s : Pool) (n : ℕ) : Pool :=
  { s with
    userObjectList := s.userObjectList ++ (List.range n).map (fun i ↦ ⟨s.nextObject + i, true⟩)
    live := s.live ++ (List.range n).map (s.nextObject + ·)
    nextObject := s.nextObject + n }

theorem grow_zero (s : Pool) : s.grow 0 = s := by simp [grow]

theorem grow_construct (s : Pool) (n : ℕ) : s.construct.grow n = s.grow (n + 1) := by
  simp only [grow, construct, List.range_succ_eq_map, List.map_cons, List.map_map,
    List.append_assoc, List.singleton_append, Nat.add_zero, Pool.mk.injEq, true_and]
  refine ⟨?_, ?_, by omega⟩ <;> congr 2 <;> apply List.map_congr_left <;> intro i _ <;>
    simp <;> omega

theorem expandList_none (n : ℕ) (s : Pool) : expandList n none s = (false, s.grow n) := by
  induction n generalizing s with
  | zero => rw [expandList, grow_zero]
  | succ n ih => rw [expandList, ih, grow_construct]

theorem expandList_some (n k : ℕ) (s : Pool) :
    expandList n (some k) s = if k < n then (true, s.grow k) else (false, s.grow n) := by
  induction n generalizing k s with
  | zero => simp [expandList, grow_zero]
  | succ n ih =>
    cases k with
    | zero => simp [expandList, grow_zero]
    | succ k => rw [expandList, ih, grow_construct, grow_construct]; simp

theorem expandList_spec (n : ℕ) (throwAt : Option ℕ) (s : Pool) :
    (∃ k, throwAt = some k ∧ k < n ∧ expandList n throwAt s = (true, s.grow k)) ∨
      expandList n throwAt s = (false, s.grow n) := by
  cases throwAt with
  | none => exact .inr (expandList_none n s)
  | some k =>
    by_cases hk : k < n
    · exact .inl ⟨k, rfl, hk, by rw [expandList_some, if_pos hk]⟩
    · exact .inr (by rw [expandList_some, if_neg hk])

def expansion (s : Pool) : ℕ × ℤ :=
  if int32 (s.curNum * 2) ≤ s.maxNum then (sizeT s.curNum, int32 (s.curNum + s.curNum))
  else (sizeT (int32 (s.maxNum - s.curNum)), s.maxNum)

theorem get_cases (s : Pool) (throwAt : Option ℕ) :
    s.userObjectList ≠ [] ∧ s.get throwAt = s.takeFront ∨
    s.userObjectList = [] ∧ s.maxNum ≤ s.curNum ∧ s.get throwAt = (.null, s) ∨
    s.userObjectList = [] ∧ s.curNum < s.maxNum ∧
      ((∃ k, throwAt = some k ∧ s.get throwAt = (.threw, s.grow k)) ∨
        s.get throwAt = takeFront { s.grow s.expansion.1 with curNum := s.expansion.2 }) := by
  by_cases hl : s.userObjectList = []
  · right
    by_cases hfull : s.maxNum ≤ s.curNum
    · exact .inl ⟨hl, hfull, by simp [get, hl, hfull]⟩
    · refine .inr ⟨hl, by omega, ?_⟩
      by_cases hbranch : int32 (s.curNum * 2) ≤ s.maxNum
      · simp only [get, hl, hfull, hbranch, expansion, ne_eq, not_true, if_false, if_true]
        rcases expandList_spec (sizeT s.curNum) throwAt s with ⟨k, hk, -, he⟩ | he
        · exact .inl ⟨k, hk, by simp [he]⟩
        · exact .inr (by simp [he, grow])
      · simp only [get, hl, hfull, hbranch, expansion, ne_eq, not_true, if_false]
        rcases expandList_spec (sizeT (int32 (s.maxNum - s.curNum))) throwAt s with
          ⟨k, hk, -, he⟩ | he
        · exact .inl ⟨k, hk, by simp [he]⟩
        · exact .inr (by simp [he, grow])
  · exact .inl ⟨hl, by simp [get, hl]⟩

theorem takeFront_cases (s : Pool) :
    s.userObjectList = [] ∧ s.takeFront = (.frontOfEmpty, s) ∨
    ∃ ptr, ptr ∈ s.userObjectList ∧ s.takeFront = (.object ptr,
      { s with
        userObjectList := s.userObjectList.filter (fun h ↦ h.object ≠ ptr.object)
        usedNum := int32 (s.usedNum + 1) }) := by
  cases hl : s.userObjectList with
  | nil => exact .inl ⟨rfl, by simp [takeFront, hl]⟩
  | cons ptr rest => exact .inr ⟨ptr, List.mem_cons_self, by simp only [takeFront, hl]⟩

end Pool

end Calcsig.ObjectPool.Model
