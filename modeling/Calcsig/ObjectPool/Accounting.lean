import Calcsig.ObjectPool.Model

namespace Calcsig.ObjectPool.Accounting

open Model Foundation.Runs

def objects (s : Pool) : List ℕ := (s.userObjectList ++ s.held).map Handle.object

/-- A handle whose object had come back to the pool before carries the plain
deleter; this counts whether a step drops such a handle. -/
def dropsReborrowed (s : Pool) : Op → ℕ
  | .get _ => 0
  | .release t =>
    match s.held.find? (fun h ↦ h.object = t) with
    | some h => if h.pooled then 0 else 1
    | none => 0

/-- The counters of a pool from which `dropped` reborrowed handles have been
dropped, and the whereabouts of its objects. -/
structure Inv (s : Pool) (dropped : ℕ) : Prop where
  kept : s.freeObject = false
  used : s.usedNum = s.held.length + dropped
  idle : s.curNum - s.usedNum = s.userObjectList.length
  init_nonneg : 0 ≤ s.initNum
  lower : s.initNum ≤ s.curNum
  upper : s.curNum ≤ max s.initNum s.maxNum
  init_lt : s.initNum < 2 ^ 31
  max_lt : s.maxNum < 2 ^ 31
  nodup : (objects s).Nodup
  live_perm : s.live.Perm (objects s)
  created : ∀ o ∈ s.live, o < s.nextObject

def Fits (s : Pool) : Op → Prop
  | .get _ => s.userObjectList = [] → s.curNum < s.maxNum → s.curNum * 2 < 2 ^ 31
  | .release _ => True

def ThrowsFirst (s : Pool) : Op → Prop
  | .get throwAt => (s.get throwAt).1 = .threw → throwAt = some 0
  | .release _ => True

def Regular (s : Pool) (op : Op) : Prop := Fits s op ∧ ThrowsFirst s op

theorem Inv.cur_lt {s : Pool} {n : ℕ} (h : Inv s n) : s.curNum < 2 ^ 31 := by
  have hu := h.upper
  have hi := h.init_lt
  have hm := h.max_lt
  omega

theorem Inv.live_length {s : Pool} {n : ℕ} (h : Inv s n) :
    (s.live.length : ℤ) + n = s.curNum := by
  have hlen := h.live_perm.length_eq
  simp only [objects, List.length_map, List.length_append] at hlen
  have hu := h.used
  have hi := h.idle
  omega

theorem inv_grow {s : Pool} {n : ℕ} (h : Inv s n) (m : ℕ)
    (hm : s.curNum + m ≤ max s.initNum s.maxNum) :
    Inv { s.grow m with curNum := s.curNum + m } n := by
  have hnew : ∀ o ∈ (List.range m).map (s.nextObject + ·), o ∉ objects s := by
    intro o ho hmem
    obtain ⟨i, -, rfl⟩ := List.mem_map.mp ho
    have hlt := h.created _ (h.live_perm.mem_iff.mpr hmem)
    omega
  have hobj : (objects { s.grow m with curNum := s.curNum + m }).Perm
      (objects s ++ (List.range m).map (s.nextObject + ·)) := by
    simp only [objects, Pool.grow, List.map_append, List.map_map, List.append_assoc]
    exact List.Perm.append_left _ List.perm_append_comm
  have hlower := h.lower
  have hidle := h.idle
  refine ⟨h.kept, h.used, ?_, h.init_nonneg, ?_, hm, h.init_lt, h.max_lt, ?_, ?_, ?_⟩
  · simp only [Pool.grow, List.length_append, List.length_map, List.length_range]
    omega
  · simp only [Pool.grow]
    omega
  · rw [hobj.nodup_iff, List.nodup_append]
    refine ⟨h.nodup, ?_, ?_⟩
    · exact List.Nodup.map (fun a b hab ↦ by simpa using hab) List.nodup_range
    · rintro a ha b hb rfl
      exact hnew a hb ha
  · exact (List.Perm.append_right _ h.live_perm).trans hobj.symm
  · intro o ho
    simp only [Pool.grow, List.mem_append, List.mem_map, List.mem_range] at ho ⊢
    rcases ho with ho | ⟨i, hi, rfl⟩
    · have hlt := h.created o ho
      omega
    · omega

theorem takeFront_cons {s : Pool} {n : ℕ} (h : Inv s n) {ptr : Handle} {rest : List Handle}
    (hl : s.userObjectList = ptr :: rest) :
    s.takeFront = (.object ptr, { s with userObjectList := rest, usedNum := s.usedNum + 1 }) := by
  have hnd := h.nodup
  simp only [objects, hl, List.cons_append, List.map_cons, List.nodup_cons, List.map_append,
    List.mem_append, not_or] at hnd
  have hfilter : rest.filter (fun h ↦ h.object ≠ ptr.object) = rest := by
    apply List.filter_eq_self.mpr
    intro x hx
    simp only [ne_eq, decide_not, Bool.not_eq_eq_eq_not, Bool.not_true, decide_eq_false_iff_not]
    intro he
    exact hnd.1.1 (List.mem_map.mpr ⟨x, hx, he⟩)
  have hidle := h.idle
  have hused := h.used
  have hcur := h.cur_lt
  rw [hl, List.length_cons] at hidle
  have hint : int32 (s.usedNum + 1) = s.usedNum + 1 := int32_of_range (by omega) (by omega)
  simp only [Pool.takeFront, hl, hint, List.filter_cons, ne_eq, not_true, decide_false,
    Bool.false_eq_true, if_false]
  rw [hfilter]

theorem inv_borrow {s : Pool} {n : ℕ} (h : Inv s n) : Inv (handOut s.takeFront) n := by
  cases hl : s.userObjectList with
  | nil => simpa only [Pool.takeFront, hl, handOut] using h
  | cons ptr rest =>
    rw [takeFront_cons h hl]
    have hobj : (objects s).Perm
        (objects (handOut (.object ptr, { s with userObjectList := rest, usedNum := s.usedNum + 1 }))) := by
      simp only [objects, handOut, hl]
      apply List.Perm.map
      rw [List.cons_append, ← List.append_assoc]
      exact (List.perm_append_singleton ptr _).symm
    have hidle := h.idle
    have hused := h.used
    rw [hl, List.length_cons] at hidle
    refine ⟨h.kept, ?_, ?_, h.init_nonneg, h.lower, h.upper, h.init_lt, h.max_lt,
      hobj.nodup_iff.mp h.nodup, h.live_perm.trans hobj, h.created⟩
    · simp only [handOut, List.length_append, List.length_singleton]
      omega
    · simp only [handOut]
      omega

theorem expansion_spec {s : Pool} {n : ℕ} (h : Inv s n) (hroom : s.curNum < s.maxNum)
    (hfits : s.curNum * 2 < 2 ^ 31) :
    s.expansion.2 = s.curNum + s.expansion.1 ∧ s.expansion.2 ≤ s.maxNum := by
  have hlower := h.lower
  have hinit := h.init_nonneg
  have hmax := h.max_lt
  have hdouble : int32 (s.curNum * 2) = s.curNum * 2 := int32_of_range (by omega) (by omega)
  unfold Pool.expansion
  rw [hdouble]
  split
  · rw [int32_of_range (by omega) (by omega), sizeT_of_range (by omega) (by omega)]
    simp only
    omega
  · rw [int32_of_range (by omega) (by omega), sizeT_of_range (by omega) (by omega)]
    simp only
    omega

theorem inv_get {s : Pool} {n : ℕ} (h : Inv s n) {throwAt : Option ℕ}
    (hr : Regular s (.get throwAt)) : Inv (handOut (s.get throwAt)) n := by
  rcases s.get_cases throwAt with ⟨-, he⟩ | ⟨-, -, he⟩ | ⟨hl, hroom, ⟨k, hk, he⟩ | he⟩
  · rw [he]
    exact inv_borrow h
  · rwa [he]
  · have hzero := hr.2 (by rw [he])
    obtain rfl : k = 0 := Option.some.inj (hk.symm.trans hzero)
    rw [he, Pool.grow_zero]
    exact h
  · obtain ⟨hcur, hle⟩ := expansion_spec h hroom (hr.1 hl hroom)
    rw [he, hcur]
    exact inv_borrow (inv_grow h _ (by omega))

section Release

variable {s : Pool} {h : Handle}

theorem objects_erase (hmem : h ∈ s.held) :
    (objects s).Perm (h.object :: objects { s with held := s.held.erase h }) := by
  have hperm : (s.userObjectList ++ s.held).Perm (h :: (s.userObjectList ++ s.held.erase h)) :=
    (List.Perm.append_left _ (List.perm_cons_erase hmem)).trans List.perm_middle
  simpa only [objects, List.map_cons] using hperm.map Handle.object

theorem live_erase {n : ℕ} (hi : Inv s n) (hmem : h ∈ s.held) :
    (s.live.erase h.object).Perm (objects { s with held := s.held.erase h }) := by
  have hp := (hi.live_perm.trans (objects_erase hmem)).erase h.object
  rwa [List.erase_cons_head] at hp

theorem nodup_erase {n : ℕ} (hi : Inv s n) (hmem : h ∈ s.held) :
    (objects { s with held := s.held.erase h }).Nodup :=
  (List.nodup_cons.mp ((objects_erase hmem).nodup_iff.mp hi.nodup)).2

theorem held_erase (hmem : h ∈ s.held) : (s.held.length : ℤ) = (s.held.erase h).length + 1 := by
  have hlen := (List.perm_cons_erase hmem).length_eq
  rw [List.length_cons] at hlen
  omega

theorem inv_delete {n : ℕ} (hi : Inv s n) (hmem : h ∈ s.held) :
    Inv (Pool.delete { s with held := s.held.erase h } h.object) (n + 1) := by
  have hlen := held_erase hmem
  have hused := hi.used
  refine ⟨hi.kept, ?_, hi.idle, hi.init_nonneg, hi.lower, hi.upper, hi.init_lt, hi.max_lt,
    nodup_erase hi hmem, live_erase hi hmem, fun o ho ↦ hi.created o (List.mem_of_mem_erase ho)⟩
  simp only [Pool.delete]
  omega

theorem inv_shrink {n : ℕ} (hi : Inv s n) (hmem : h ∈ s.held)
    (hsurplus : s.initNum < s.curNum - s.usedNum) :
    Inv { Pool.delete { s with held := s.held.erase h } h.object with
      curNum := s.curNum - 1, usedNum := s.usedNum - 1 } n := by
  have hlen := held_erase hmem
  have hused := hi.used
  have hidle := hi.idle
  have hupper := hi.upper
  refine ⟨hi.kept, ?_, ?_, hi.init_nonneg, ?_, ?_, hi.init_lt, hi.max_lt,
    nodup_erase hi hmem, live_erase hi hmem, fun o ho ↦ hi.created o (List.mem_of_mem_erase ho)⟩
  all_goals
    simp only [Pool.delete]
    omega

theorem inv_return {n : ℕ} (hi : Inv s n) (hmem : h ∈ s.held) :
    Inv { s with
      held := s.held.erase h
      userObjectList := s.userObjectList ++ [⟨h.object, false⟩]
      usedNum := s.usedNum - 1 } n := by
  have hobj : (objects s).Perm (objects { s with
      held := s.held.erase h
      userObjectList := s.userObjectList ++ [⟨h.object, false⟩]
      usedNum := s.usedNum - 1 }) := by
    refine (objects_erase hmem).trans ?_
    simp only [objects, List.map_append, List.map_cons, List.append_assoc,
      List.singleton_append]
    exact List.perm_middle.symm
  have hlen := held_erase hmem
  have hused := hi.used
  have hidle := hi.idle
  refine ⟨hi.kept, ?_, ?_, hi.init_nonneg, hi.lower, hi.upper, hi.init_lt, hi.max_lt,
    hobj.nodup_iff.mp hi.nodup, hi.live_perm.trans hobj, hi.created⟩
  · simp only
    omega
  · simp only [List.length_append, List.length_singleton]
    omega

theorem inv_autoCreatePtr {n : ℕ} (hi : Inv s n) (hmem : h ∈ s.held) :
    Inv (Pool.autoCreatePtr { s with held := s.held.erase h } h.object) n := by
  have hlen := held_erase hmem
  have hused := hi.used
  have hidle := hi.idle
  have hlower := hi.lower
  have hinit := hi.init_nonneg
  have hcur := hi.cur_lt
  have hdiff : int32 (s.curNum - s.usedNum) = s.curNum - s.usedNum :=
    int32_of_range (by omega) (by omega)
  have hcur' : int32 (s.curNum - 1) = s.curNum - 1 := int32_of_range (by omega) (by omega)
  have hused' : int32 (s.usedNum - 1) = s.usedNum - 1 := int32_of_range (by omega) (by omega)
  have hfree : ¬ s.freeObject = true := by simp [hi.kept]
  simp only [Pool.autoCreatePtr, hdiff, hcur', hused']
  rw [if_neg hfree]
  split
  · rename_i hsurplus
    exact inv_shrink hi hmem hsurplus
  · exact inv_return hi hmem

end Release

theorem inv_step (s : Pool) (n : ℕ) (op : Op) (h : Inv s n) (hr : Regular s op) :
    Inv (step s op) (n + dropsReborrowed s op) := by
  cases op with
  | get throwAt => exact inv_get h hr
  | release t =>
    cases hf : s.held.find? (fun h ↦ h.object = t) with
    | none => simpa only [step, dropsReborrowed, hf, Nat.add_zero] using h
    | some ptr =>
      have hmem := List.mem_of_find?_eq_some hf
      simp only [step, dropsReborrowed, hf]
      cases ptr.pooled with
      | true => exact inv_autoCreatePtr h hmem
      | false => exact inv_delete h hmem

theorem init_eq (num max : ℕ) :
    Pool.init num max = Pool.grow
      { initNum := int32 num, curNum := int32 num, usedNum := 0, maxNum := int32 max,
        freeObject := false, userObjectList := [], held := [], live := [], nextObject := 0 }
      (int32 num).toNat := by
  rw [Pool.init, Pool.expandList_none]

theorem inv_init {num : ℕ} (hnum : 0 ≤ int32 num) (max : ℕ) : Inv (Pool.init num max) 0 := by
  rw [init_eq]
  refine ⟨rfl, by simp [Pool.grow], ?_, hnum, le_rfl, le_max_left _ _, int32_lt _, int32_lt _,
    ?_, ?_, ?_⟩
  · simp only [Pool.grow, List.nil_append, List.length_map, List.length_range]
    omega
  · simp only [objects, Pool.grow, List.nil_append, List.append_nil, List.map_map]
    exact List.Nodup.map (fun a b hab ↦ by simpa using hab) List.nodup_range
  · simp only [objects, Pool.grow, List.nil_append, List.append_nil, List.map_map]
    exact .refl _
  · intro o ho
    simp only [Pool.grow, List.nil_append, List.mem_map, List.mem_range] at ho ⊢
    obtain ⟨i, hi, rfl⟩ := ho
    omega

/-- The counters after any regular run, in terms of the reborrowed handles that
were dropped in it. -/
theorem inv_run {num : ℕ} (hnum : 0 ≤ int32 num) (max : ℕ) {ops : List Op}
    (hr : Along step Regular (Pool.init num max) ops) :
    Inv (run step (Pool.init num max) ops) (tally step dropsReborrowed (Pool.init num max) ops) := by
  simpa only [Nat.zero_add] using run_tally inv_step (inv_init hnum max) hr

end Calcsig.ObjectPool.Accounting
