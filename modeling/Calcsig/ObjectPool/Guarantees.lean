import Calcsig.ObjectPool.Accounting

namespace Calcsig.ObjectPool.Guarantees

open Model Accounting Foundation.Runs

theorem get_threw {s : Pool} {throwAt : Option ℕ} (h : (s.get throwAt).1 = .threw) :
    s.userObjectList = [] ∧ ∃ k, throwAt = some k ∧ s.get throwAt = (.threw, s.grow k) := by
  have htake (s' : Pool) : s'.takeFront.1 ≠ .threw := by
    rcases s'.takeFront_cases with ⟨-, he⟩ | ⟨ptr, -, he⟩ <;> simp [he]
  rcases s.get_cases throwAt with ⟨-, he⟩ | ⟨-, -, he⟩ | ⟨hl, -, ⟨k, hk, he⟩ | he⟩
  · exact absurd (he ▸ h) (htake s)
  · simp [he] at h
  · exact ⟨hl, k, hk, he⟩
  · exact absurd (he ▸ h) (htake _)

theorem get_null {s : Pool} {throwAt : Option ℕ} (h : (s.get throwAt).1 = .null) :
    s.userObjectList = [] ∧ s.maxNum ≤ s.curNum := by
  have htake (s' : Pool) : s'.takeFront.1 ≠ .null := by
    rcases s'.takeFront_cases with ⟨-, he⟩ | ⟨ptr, -, he⟩ <;> simp [he]
  rcases s.get_cases throwAt with ⟨-, he⟩ | ⟨hl, hfull, -⟩ | ⟨-, -, ⟨k, -, he⟩ | he⟩
  · exact absurd (he ▸ h) (htake s)
  · exact ⟨hl, hfull⟩
  · simp [he] at h
  · exact absurd (he ▸ h) (htake _)

theorem step_fields (s : Pool) (op : Op) :
    (step s op).initNum = s.initNum ∧ (step s op).maxNum = s.maxNum := by
  have htake (s' : Pool) : (handOut s'.takeFront).initNum = s'.initNum ∧
      (handOut s'.takeFront).maxNum = s'.maxNum := by
    rcases s'.takeFront_cases with ⟨-, he⟩ | ⟨ptr, -, he⟩ <;> rw [he] <;> exact ⟨rfl, rfl⟩
  cases op with
  | get throwAt =>
    simp only [step]
    rcases s.get_cases throwAt with ⟨-, he⟩ | ⟨-, -, he⟩ | ⟨-, -, ⟨k, -, he⟩ | he⟩ <;> rw [he]
    · exact htake s
    · exact ⟨rfl, rfl⟩
    · exact ⟨rfl, rfl⟩
    · exact htake _
  | release t =>
    simp only [step]
    split
    · exact ⟨rfl, rfl⟩
    · split
      · unfold Pool.autoCreatePtr
        split
        · exact ⟨rfl, rfl⟩
        · split <;> exact ⟨rfl, rfl⟩
      · exact ⟨rfl, rfl⟩

def NonThrowing : Op → Prop
  | .get throwAt => throwAt = none
  | .release _ => True

instance : (op : Op) → Decidable (NonThrowing op)
  | .get throwAt => inferInstanceAs (Decidable (throwAt = none))
  | .release _ => inferInstanceAs (Decidable True)

theorem throwsFirst_of_nonThrowing {op : Op} (h : NonThrowing op) (s : Pool) : ThrowsFirst s op := by
  cases op with
  | get throwAt =>
    intro ht
    obtain ⟨-, k, hk, -⟩ := get_threw ht
    rw [show throwAt = none from h] at hk
    cases hk
  | release t => trivial

def FirstDrop (s : Pool) (op : Op) : Prop := dropsReborrowed s op = 0

def Accounted (s : Pool) : Prop :=
  s.usedNum = s.held.length ∧ s.curNum = s.held.length + s.userObjectList.length

theorem Inv.accounted_iff {s : Pool} {n : ℕ} (h : Inv s n) : Accounted s ↔ n = 0 := by
  have hused := h.used
  have hidle := h.idle
  unfold Accounted
  omega

theorem Inv.null_outstanding {s : Pool} (h : Inv s 0) {throwAt : Option ℕ}
    (hnull : (s.get throwAt).1 = .null) : s.maxNum ≤ s.held.length := by
  obtain ⟨hl, hfull⟩ := get_null hnull
  have hused := h.used
  have hidle := h.idle
  rw [hl, List.length_nil] at hidle
  omega

theorem Inv.held_apart {s : Pool} {n : ℕ} (h : Inv s n) : (s.held.map Handle.object).Nodup ∧
    ∀ ptr ∈ s.held, ptr.object ∉ s.userObjectList.map Handle.object := by
  have hall := h.nodup
  rw [objects, List.map_append, List.nodup_append] at hall
  exact ⟨hall.2.1, fun ptr hptr hin ↦ hall.2.2 _ hin _ (List.mem_map_of_mem hptr) rfl⟩

theorem find_held {s : Pool} {n : ℕ} (hi : Inv s n) {h : Handle} (hmem : h ∈ s.held) :
    s.held.find? (fun h' ↦ h'.object = h.object) = some h := by
  cases hf : s.held.find? (fun h' ↦ h'.object = h.object) with
  | none =>
    have hno := List.find?_eq_none.mp hf h hmem
    simp at hno
  | some h' =>
    have hobj : h'.object = h.object := by simpa using List.find?_some hf
    rw [List.inj_on_of_nodup_map (Inv.held_apart hi).1 (List.mem_of_find?_eq_some hf) hmem hobj]

def Available (s : Pool) (t : ℕ) : Prop := t ∈ s.userObjectList.map Handle.object

/-- What is promised of one call: the counters are exact after it, a `get` fails only
while `max_num` handles are outstanding, and what is dropped is available again. -/
def Guaranteed (s : Pool) : Op → Prop
  | .get throwAt =>
    Accounted (step s (.get throwAt)) ∧ ((s.get throwAt).1 = .null → s.maxNum ≤ s.held.length)
  | .release t =>
    Accounted (step s (.release t)) ∧
      (t ∈ s.held.map Handle.object → Available (step s (.release t)) t)

/-- A dropped handle is the first borrowing of its object, and no more than
`init_num` objects are idle then. -/
def Returning (s : Pool) : Op → Prop
  | .get _ => True
  | .release t =>
    ∀ h ∈ s.held, h.object = t → h.pooled = true ∧ s.curNum - s.usedNum ≤ s.initNum

section Returning

variable {s : Pool} {n : ℕ} {op : Op}

theorem firstDrop_of_returning (h : Returning s op) : FirstDrop s op := by
  cases op with
  | get throwAt => rfl
  | release t =>
    rw [FirstDrop, dropsReborrowed]
    split
    · rename_i ptr hf
      have hobj : ptr.object = t := by simpa using List.find?_some hf
      exact if_pos (h ptr (List.mem_of_find?_eq_some hf) hobj).1
    · rfl

theorem inv_step_zero (h : Inv s 0) (hr : Regular s op) (hfirst : FirstDrop s op) :
    Inv (step s op) 0 := by
  have hstep := inv_step s 0 op h hr
  rwa [show dropsReborrowed s op = 0 from hfirst] at hstep

theorem diff_int32 (h : Inv s n) : int32 (s.curNum - s.usedNum) = s.curNum - s.usedNum := by
  have hidle := h.idle
  have hused := h.used
  have hcur := h.cur_lt
  exact int32_of_range (by omega) (by omega)

theorem available_of_idle (hi : Inv s n) {h : Handle} (hmem : h ∈ s.held) (hpooled : h.pooled = true)
    (hidle : s.curNum - s.usedNum ≤ s.initNum) : Available (step s (.release h.object)) h.object := by
  have hno : ¬ s.initNum < s.curNum - s.usedNum := by omega
  simp [Available, step, find_held hi hmem, hpooled, Pool.autoCreatePtr, hi.kept, diff_int32 hi, hno]

theorem returning_of_available (hi : Inv s n) {h : Handle} (hmem : h ∈ s.held)
    (havailable : Available (step s (.release h.object)) h.object) :
    h.pooled = true ∧ s.curNum - s.usedNum ≤ s.initNum := by
  by_contra hnot
  apply (Inv.held_apart hi).2 h hmem
  rw [Available, step, find_held hi hmem] at havailable
  cases hpooled : h.pooled with
  | false => simpa [hpooled, Pool.delete] using havailable
  | true =>
    have hsurplus : s.initNum < s.curNum - s.usedNum := by
      by_contra hno
      exact hnot ⟨hpooled, by omega⟩
    simpa [hpooled, Pool.autoCreatePtr, hi.kept, diff_int32 hi, hsurplus, Pool.delete] using havailable

theorem guaranteed_of_returning (h : Inv s 0) (hr : Regular s op) (hret : Returning s op) :
    Guaranteed s op := by
  have hnext := (Inv.accounted_iff (inv_step_zero h hr (firstDrop_of_returning hret))).mpr rfl
  cases op with
  | get throwAt => exact ⟨hnext, Inv.null_outstanding h⟩
  | release t =>
    refine ⟨hnext, fun ht ↦ ?_⟩
    obtain ⟨ptr, hptr, rfl⟩ := List.mem_map.mp ht
    exact available_of_idle h hptr (hret ptr hptr rfl).1 (hret ptr hptr rfl).2

theorem returning_of_guaranteed (h : Inv s 0) (hg : Guaranteed s op) : Returning s op := by
  cases op with
  | get throwAt => trivial
  | release t =>
    rintro ptr hptr rfl
    exact returning_of_available h hptr (hg.2 (List.mem_map_of_mem hptr))

end Returning

/-- In a run without throwing constructors and overflow the counters are exact
if and only if every handle that was dropped had been borrowed for the first
time. Every call keeps all three promises if and only if, besides, no handle is
dropped while more than `init_num` objects are idle. -/
theorem accounting_exact (num limit : ℕ) (hnum : 1 ≤ int32 num) (ops : List Op)
    (hbuild : ∀ op ∈ ops, NonThrowing op) (hfits : Along step Fits (Pool.init num limit) ops) :
    (Accounted (run step (Pool.init num limit) ops) ↔
        Along step FirstDrop (Pool.init num limit) ops) ∧
      (Along step Guaranteed (Pool.init num limit) ops ↔
        Along step Returning (Pool.init num limit) ops) := by
  have hthrow : Along step ThrowsFirst (Pool.init num limit) ops :=
    along_of_forall (fun op hop t ↦ throwsFirst_of_nonThrowing (hbuild op hop) t) _
  have hregular := hfits.and hthrow
  have hinit : Inv (Pool.init num limit) 0 := inv_init (by omega) limit
  refine ⟨?_, fun hg ↦ ?_, fun hret ↦ ?_⟩
  · exact (Inv.accounted_iff (inv_run (by omega) limit hregular)).trans tally_eq_zero_iff
  · exact along_of_invariant (I := fun s ↦ Inv s 0)
      (fun s op h hboth hret ↦ inv_step_zero h hboth.1 (firstDrop_of_returning hret))
      (fun s op h hboth ↦ returning_of_guaranteed h hboth.2) hinit (hregular.and hg)
  · exact along_of_invariant (I := fun s ↦ Inv s 0)
      (fun s op h hboth _ ↦ inv_step_zero h hboth.1 (firstDrop_of_returning hboth.2))
      (fun s op h hboth ↦ guaranteed_of_returning h hboth.1 hboth.2) hinit (hregular.and hret)

instance (s : Pool) (op : Op) : Decidable (FirstDrop s op) := inferInstanceAs (Decidable (_ = 0))

instance (s : Pool) : (op : Op) → Decidable (Fits s op)
  | .get _ => inferInstanceAs (Decidable (s.userObjectList = [] → s.curNum < s.maxNum → _))
  | .release _ => inferInstanceAs (Decidable True)

instance (s : Pool) : (op : Op) → Decidable (ThrowsFirst s op)
  | .get throwAt => inferInstanceAs (Decidable ((s.get throwAt).1 = .threw → throwAt = some 0))
  | .release _ => inferInstanceAs (Decidable True)

instance (s : Pool) (op : Op) : Decidable (Regular s op) := inferInstanceAs (Decidable (_ ∧ _))

instance (s : Pool) : (op : Op) → Decidable (Returning s op)
  | .get _ => inferInstanceAs (Decidable True)
  | .release _ => inferInstanceAs (Decidable (∀ h ∈ s.held, _))

/-- The fourth call drops a handle while more than one object is idle. -/
theorem accounting_exact_instance :
    let ops := [Op.get none, .get none, .get none, .release 0]
    Along step Guaranteed (Pool.init 1 10) ops ∧
      ¬ Along step Guaranteed (Pool.init 1 10) (ops ++ [.release 1]) := by
  intro ops
  have h := accounting_exact 1 10 (by decide) ops (by decide) (by decide)
  have h' := accounting_exact 1 10 (by decide) (ops ++ [.release 1]) (by decide) (by decide)
  exact ⟨h.2.mpr (by decide), fun hg ↦ absurd (h'.2.mp hg) (by decide)⟩

theorem accounting_lost :
    let s := run step (Pool.init 1 1) [.get none, .release 0, .get none, .release 0]
    s.held = [] ∧ s.usedNum = 1 ∧ s.curNum = 1 ∧ s.userObjectList = [] ∧
      (s.get none).1 = .null := by
  decide

theorem init_fields (num limit : ℕ) :
    (Pool.init num limit).initNum = int32 num ∧ (Pool.init num limit).maxNum = int32 limit := by
  rw [init_eq]
  exact ⟨rfl, rfl⟩

theorem run_fields (num limit : ℕ) (ops : List Op) :
    (run step (Pool.init num limit) ops).initNum = int32 num ∧
      (run step (Pool.init num limit) ops).maxNum = int32 limit := by
  let I (s : Pool) := s.initNum = int32 num ∧ s.maxNum = int32 limit
  have hstep : ∀ s op, I s → True → I (step s op) := by
    intro s op hs _
    rwa [show I (step s op) ↔ I s by simp only [I, (step_fields s op).1, (step_fields s op).2]]
  exact run_invariant hstep (init_fields num limit) (along_of_forall (fun _ _ _ ↦ trivial) _)

/-- The states of a pool whose settings are too small for an overflow. -/
structure Small (num limit : ℕ) (s : Pool) : Prop where
  num_lt : num < 2 ^ 30
  limit_lt : limit < 2 ^ 30
  counted : ∃ n, Inv s n
  initNum_eq : s.initNum = num
  maxNum_eq : s.maxNum = limit

section Small

variable {num limit : ℕ} {s : Pool} {op : Op}

theorem small_init (hnum : num < 2 ^ 30) (hmax : limit < 2 ^ 30) :
    Small num limit (Pool.init num limit) := by
  have hn : int32 num = num := int32_of_range (by omega) (by omega)
  have hm : int32 limit = limit := int32_of_range (by omega) (by omega)
  have hf := init_fields num limit
  exact ⟨hnum, hmax, ⟨0, inv_init (by omega) limit⟩, hf.1.trans hn, hf.2.trans hm⟩

theorem Small.step (h : Small num limit s) (hr : Regular s op) : Small num limit (step s op) := by
  obtain ⟨n, hi⟩ := h.counted
  refine ⟨h.num_lt, h.limit_lt, ⟨_, inv_step s n op hi hr⟩, ?_, ?_⟩
  · rw [(step_fields s op).1, h.initNum_eq]
  · rw [(step_fields s op).2, h.maxNum_eq]

theorem Small.regular (h : Small num limit s) (ht : ThrowsFirst s op) : Regular s op := by
  refine ⟨?_, ht⟩
  obtain ⟨n, hi⟩ := h.counted
  have hupper := hi.upper
  have hinit := h.initNum_eq
  have hmax := h.maxNum_eq
  have hnum := h.num_lt
  have hlimit := h.limit_lt
  cases op with
  | get throwAt =>
    intro _ _
    omega
  | release t => trivial

end Small

theorem fits_of_small {num limit : ℕ} (hnum : num < 2 ^ 30) (hmax : limit < 2 ^ 30) {ops : List Op}
    (hthrow : Along step ThrowsFirst (Pool.init num limit) ops) :
    Along step Regular (Pool.init num limit) ops :=
  along_of_invariant (fun _ _ h _ hr ↦ h.step hr) (fun _ _ h ht ↦ h.regular ht)
    (small_init hnum hmax) hthrow

/-- No object is ever in two places, the counters match the list, and at most
`max(init_num, max_num)` objects live. -/
theorem capacity_and_exclusivity (num limit : ℕ) (hnum : num < 2 ^ 30)
    (hmax : limit < 2 ^ 30) (ops : List Op) (hbuild : ∀ op ∈ ops, NonThrowing op) :
    let s := run step (Pool.init num limit) ops
    (objects s).Nodup ∧ s.curNum - s.usedNum = s.userObjectList.length ∧
      s.held.length ≤ s.usedNum ∧ s.initNum = num ∧ s.maxNum = limit ∧ s.initNum ≤ s.curNum ∧
      s.curNum ≤ max s.initNum s.maxNum ∧ s.live.Perm (objects s) ∧
      s.live.length ≤ max s.initNum s.maxNum := by
  intro s
  have hthrow : Along step ThrowsFirst (Pool.init num limit) ops :=
    along_of_forall (fun op hop t ↦ throwsFirst_of_nonThrowing (hbuild op hop) t) _
  have hn : int32 num = num := int32_of_range (by omega) (by omega)
  have hm : int32 limit = limit := int32_of_range (by omega) (by omega)
  have hinv : Inv s _ := inv_run (by omega) limit (fits_of_small hnum hmax hthrow)
  have hf := run_fields num limit ops
  have hused := hinv.used
  have hlive := hinv.live_length
  have hupper := hinv.upper
  exact ⟨hinv.nodup, hinv.idle, by omega, hf.1.trans hn, hf.2.trans hm, hinv.lower, hupper,
    hinv.live_perm, by omega⟩

theorem capacity_and_exclusivity_instance :
    let s := run step (Pool.init 1 3) [.get none, .get none, .release 0, .get none]
    (objects s).Nodup ∧ s.live.length ≤ max s.initNum s.maxNum := by
  have h := capacity_and_exclusivity 1 3 (by decide) (by decide)
    [.get none, .get none, .release 0, .get none] (by decide)
  exact ⟨h.1, h.2.2.2.2.2.2.2.2⟩

def Balanced (s : Pool) : Prop := s.curNum - s.usedNum = s.userObjectList.length

instance (s : Pool) : Decidable (Balanced s) := inferInstanceAs (Decidable (_ = _))

/-- A throwing `get` keeps the balance exactly when the first construction of
its expansion is the one that throws; while that is so, the balance and the
bound on live objects survive any mix of failures. -/
theorem throwing_get_exact (num limit : ℕ) :
    (∀ ops k, let s := run step (Pool.init num limit) ops
      Balanced s → (s.get (some k)).1 = .threw →
        (Balanced (step s (.get (some k))) ↔ k = 0)) ∧
    (0 ≤ int32 num → ∀ ops, Along step Regular (Pool.init num limit) ops →
      let s := run step (Pool.init num limit) ops
      Balanced s ∧ s.live.length ≤ max s.initNum s.maxNum) := by
  refine ⟨fun ops k ↦ ?_, fun hnum ops hr ↦ ?_⟩
  · intro s hbal ht
    obtain ⟨hl, k', hk, he⟩ := get_threw ht
    obtain rfl : k = k' := Option.some.inj hk
    have hs : step s (.get (some k)) = s.grow k := by
      simp only [step, he]
      rfl
    have hlen : (s.grow k).userObjectList.length = k := by
      simp [Pool.grow, hl]
    rw [Balanced, hl, List.length_nil] at hbal
    rw [hs, Balanced, hlen]
    simp only [Pool.grow]
    omega
  · intro s
    have hinv : Inv s _ := inv_run hnum limit hr
    have hlive := hinv.live_length
    have hupper := hinv.upper
    exact ⟨hinv.idle, by omega⟩

theorem throwing_get_exact_instance :
    let ops := [Op.get none, .get none, .get (some 0), .get none]
    let s := run step (Pool.init 2 4) ops
    Along step Regular (Pool.init 2 4) ops ∧ Balanced s ∧
      s.live.length ≤ max s.initNum s.maxNum := by
  have hr : Along step Regular (Pool.init 2 4) [.get none, .get none, .get (some 0), .get none] := by
    decide
  exact ⟨hr, (throwing_get_exact 2 4).2 (by decide) _ hr⟩

/-- The second of two constructions throws: the list has an object more than
the counters say, and two calls later five objects live where four may. -/
theorem throwing_get_unbalanced :
    let s := run step (Pool.init 2 4) [.get none, .get none]
    let s' := step s (.get (some 1))
    let s'' := run step s' [.get none, .get none]
    Balanced s ∧ (s.get (some 1)).1 = .threw ∧ ¬ Balanced s' ∧
      ¬ (s''.live.length : ℤ) ≤ max s''.initNum s''.maxNum := by
  decide

section Front

def IsGet : Op → Prop
  | .get _ => True
  | .release _ => False

def FrontTaken (s : Pool) : Op → Prop
  | .get throwAt => (s.get throwAt).1 ≠ .frontOfEmpty
  | .release _ => True

instance : (op : Op) → Decidable (IsGet op)
  | .get _ => inferInstanceAs (Decidable True)
  | .release _ => inferInstanceAs (Decidable False)

instance (s : Pool) : (op : Op) → Decidable (FrontTaken s op)
  | .get _ => inferInstanceAs (Decidable (_ ≠ _))
  | .release _ => inferInstanceAs (Decidable True)

variable {s : Pool} {n : ℕ}

theorem takeFront_frontOfEmpty_iff (s : Pool) :
    s.takeFront.1 = .frontOfEmpty ↔ s.userObjectList = [] := by
  cases hl : s.userObjectList with
  | nil => simp [Pool.takeFront, hl]
  | cons ptr rest => simp [Pool.takeFront, hl]

theorem expansion_eq_zero_iff (h : Inv s n) (hroom : s.curNum < s.maxNum)
    (hfits : s.curNum * 2 < 2 ^ 31) : s.expansion.1 = 0 ↔ s.curNum = 0 := by
  have hlower := h.lower
  have hinit := h.init_nonneg
  have hmax := h.max_lt
  have hdouble : int32 (s.curNum * 2) = s.curNum * 2 := int32_of_range (by omega) (by omega)
  unfold Pool.expansion
  rw [hdouble]
  split
  · rw [sizeT_of_range (by omega) (by omega)]
    omega
  · rw [int32_of_range (by omega) (by omega), sizeT_of_range (by omega) (by omega)]
    omega

theorem get_frontOfEmpty_iff (h : Inv s n) (hfits : Fits s (.get none)) :
    (s.get none).1 = .frontOfEmpty ↔ s.curNum = 0 ∧ 0 < s.maxNum := by
  have hidle := h.idle
  have hused := h.used
  rcases s.get_cases none with ⟨hl, he⟩ | ⟨-, hfull, he⟩ | ⟨hl, hroom, ⟨k, hk, -⟩ | he⟩
  · have hpos := List.length_pos_iff.mpr hl
    rw [he, takeFront_frontOfEmpty_iff]
    exact iff_of_false hl (by omega)
  · rw [he]
    exact iff_of_false (by simp) (by omega)
  · cases hk
  · have hzero := expansion_eq_zero_iff h hroom (hfits hl hroom)
    rw [he, takeFront_frontOfEmpty_iff]
    simp only [Pool.grow, hl, List.nil_append, List.map_eq_nil_iff, List.range_eq_nil, hzero]
    omega

theorem no_get_of_frontTaken {limit : ℕ} (hlimit : 0 < limit) (hmax : limit < 2 ^ 30) {ops : List Op}
    (hbuild : ∀ op ∈ ops, NonThrowing op)
    (h : Along step FrontTaken (Pool.init 0 limit) ops) : ∀ op ∈ ops, ¬ IsGet op := by
  induction ops with
  | nil => simp
  | cons op ops ih =>
    cases op with
    | get throwAt =>
      obtain rfl : throwAt = none := hbuild _ List.mem_cons_self
      have hsmall := small_init (show 0 < 2 ^ 30 by omega) hmax
      obtain ⟨n, hi⟩ := hsmall.counted
      have hcalm : NonThrowing (.get none) := rfl
      have hfits := (hsmall.regular (throwsFirst_of_nonThrowing hcalm _)).1
      refine absurd ((get_frontOfEmpty_iff hi hfits).mpr ⟨rfl, ?_⟩) h.1
      rw [hsmall.maxNum_eq]
      omega
    | release t =>
      have hrest : Along step FrontTaken (Pool.init 0 limit) ops := h.2
      intro op hop
      rcases List.mem_cons.mp hop with rfl | hop
      · exact id
      · exact ih (fun op hop ↦ hbuild op (List.mem_cons_of_mem _ hop)) hrest op hop

end Front

/-- `get` takes the front of an empty list exactly when it is called on a pool
that was started without objects and may have some. -/
theorem front_taken_iff (num limit : ℕ) (hnum : num < 2 ^ 30) (hmax : limit < 2 ^ 30) (ops : List Op)
    (hbuild : ∀ op ∈ ops, NonThrowing op) :
    Along step FrontTaken (Pool.init num limit) ops ↔
      0 < num ∨ limit = 0 ∨ ∀ op ∈ ops, ¬ IsGet op := by
  constructor
  · intro h
    by_cases hpos : 0 < num ∨ limit = 0
    · exact or_assoc.mp (.inl hpos)
    · obtain rfl : num = 0 := by omega
      exact .inr (.inr (no_get_of_frontTaken (by omega) hmax hbuild h))
  · rw [← or_assoc]
    rintro (hpos | hnone)
    · have hthrow : Along step (fun _ op ↦ NonThrowing op) (Pool.init num limit) ops :=
        along_of_forall (fun op hop _ ↦ hbuild op hop) _
      refine along_of_invariant (I := Small num limit) (fun s op h hop _ ↦ ?_) (fun s op h hop ↦ ?_)
        (small_init hnum hmax) hthrow
      · exact h.step (h.regular (throwsFirst_of_nonThrowing hop s))
      · have hfits := (h.regular (throwsFirst_of_nonThrowing hop s)).1
        cases op with
        | get throwAt =>
          obtain rfl : throwAt = none := hop
          obtain ⟨n, hi⟩ := h.counted
          have hlower := hi.lower
          have hinit := h.initNum_eq
          have hlimit := h.maxNum_eq
          exact mt (get_frontOfEmpty_iff hi hfits).mp (by omega)
        | release t => trivial
    · refine along_of_forall (fun op hop s ↦ ?_) _
      cases op with
      | get throwAt => exact absurd trivial (hnone _ hop)
      | release t => trivial

theorem front_taken_iff_instance :
    Along step FrontTaken (Pool.init 1 3) [.get none, .get none, .release 0, .get none] :=
  (front_taken_iff 1 3 (by decide) (by decide) [.get none, .get none, .release 0, .get none]
    (by decide)).mpr (.inl (by decide))

/-- Settings of no connections at the start and ten at most: the first `get`
goes wrong. -/
theorem front_of_empty_pool :
    ((Pool.init 0 10).get none).1 = .frontOfEmpty ∧
      ¬ Along step FrontTaken (Pool.init 0 10) [.get none] := by
  decide

end Calcsig.ObjectPool.Guarantees
