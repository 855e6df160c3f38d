import Calcsig.Foundation.Runs
import Mathlib.Data.Finset.Insert
import Mathlib.Data.Finset.Erase
import Mathlib.Logic.Function.Basic

namespace Calcsig.Foundation.TypedStore

open Function Runs

variable {κ τ : Type} [DecidableEq κ] [DecidableEq τ]

/-- What a key holds; a string stands for any type that the operations refuse.
A set that runs empty is no value: its key is gone. -/
inductive Value (τ : Type)
  | string : τ → Value τ
  | hash : (τ → Option τ) → Value τ
  | set : (members : Finset τ) → members.Nonempty → Value τ

def ofSet (members : Finset τ) : Option (Value τ) :=
  if h : members.Nonempty then some (.set members h) else none

inductive Op (τ : Type)
  | hmset : List (τ × τ) → Op τ
  | sadd : τ → Op τ
  | srem : τ → Op τ

def assign (h : τ → Option τ) (fields : List (τ × τ)) : τ → Option τ :=
  fields.foldl (fun h field ↦ update h field.1 (some field.2)) h

namespace Op

/-- The value the key holds afterwards; `none` where the operation fails, on a
value of another type or for want of fields. -/
def apply : Op τ → Option (Value τ) → Option (Option (Value τ))
  | hmset [], _ => none
  | hmset (field :: fields), none => some (some (.hash (assign (fun _ ↦ none) (field :: fields))))
  | hmset (field :: fields), some (.hash h) => some (some (.hash (assign h (field :: fields))))
  | sadd x, none => some (ofSet {x})
  | sadd x, some (.set members _) => some (ofSet (insert x members))
  | srem _, none => some none
  | srem x, some (.set members _) => some (ofSet (members.erase x))
  | _, _ => none

def after (op : Op τ) (v : Option (Value τ)) : Option (Value τ) := (op.apply v).getD v

end Op

structure Command (κ τ : Type) where
  key : κ
  op : Op τ

abbrev Store (κ τ : Type) := κ → Option (Value τ)

def perform (store : Store κ τ) (c : Command κ τ) : Store κ τ :=
  update store c.key (c.op.after (store c.key))

def opsOn (key : κ) (cs : List (Command κ τ)) : List (Op τ) :=
  (cs.filter (fun c ↦ c.key = key)).map Command.op

omit [DecidableEq τ] in
theorem opsOn_nil (key : κ) : opsOn key ([] : List (Command κ τ)) = [] := rfl

omit [DecidableEq τ] in
theorem opsOn_cons (key : κ) (c : Command κ τ) (cs : List (Command κ τ)) :
    opsOn key (c :: cs) = if c.key = key then c.op :: opsOn key cs else opsOn key cs := by
  by_cases h : c.key = key <;> simp [opsOn, h]

omit [DecidableEq τ] in
theorem mem_opsOn {key : κ} {op : Op τ} {cs : List (Command κ τ)} :
    op ∈ opsOn key cs ↔ ⟨key, op⟩ ∈ cs := by
  simp only [opsOn, List.mem_map, List.mem_filter, decide_eq_true_eq]
  constructor
  · rintro ⟨c, ⟨hc, rfl⟩, rfl⟩
    exact hc
  · exact fun h ↦ ⟨_, ⟨h, rfl⟩, rfl⟩

omit [DecidableEq τ] in
theorem opsOn_flatMap {α : Type} (key : κ) (f : α → List (Command κ τ)) (as : List α) :
    opsOn key (as.flatMap f) = as.flatMap (fun a ↦ opsOn key (f a)) := by
  simp only [opsOn, List.filter_flatMap, List.map_flatMap]

abbrev runOps (v : Option (Value τ)) (ops : List (Op τ)) : Option (Value τ) :=
  run (fun v op ↦ op.after v) v ops

theorem runOps_append (v : Option (Value τ)) (ops ops' : List (Op τ)) :
    runOps v (ops ++ ops') = runOps (runOps v ops) ops' := run_append v ops ops'

theorem run_perform_apply (store : Store κ τ) (cs : List (Command κ τ)) (key : κ) :
    run perform store cs key = runOps (store key) (opsOn key cs) := by
  induction cs generalizing store with
  | nil => rfl
  | cons c cs ih =>
    by_cases h : c.key = key
    · simpa [run, opsOn, perform, h] using ih (perform store c)
    · simpa [run, opsOn, perform, h, Ne.symm h] using ih (perform store c)

section LastWriter

variable {α β ε : Type} (write : ε → α → Option β)

def overwrite (f : α → β) (es : List ε) : α → β :=
  es.foldl (fun f e x ↦ (write e x).getD (f x)) f

def lastWrite (es : List ε) (x : α) : Option β := es.foldl (fun o e ↦ (write e x).or o) none

theorem foldl_or (es : List ε) (x : α) (o : Option β) :
    es.foldl (fun o e ↦ (write e x).or o) o = (lastWrite write es x).or o := by
  induction es generalizing o with
  | nil => rfl
  | cons e es ih =>
    simp only [lastWrite, List.foldl_cons]
    rw [ih, ih]
    simp [Option.or_assoc]

theorem overwrite_apply (f : α → β) (es : List ε) (x : α) :
    overwrite write f es x = (lastWrite write es x).getD (f x) := by
  induction es generalizing f with
  | nil => rfl
  | cons e es ih =>
    rw [lastWrite, List.foldl_cons, foldl_or]
    refine (ih _).trans ?_
    cases lastWrite write es x <;> simp

theorem overwrite_overwrite (f : α → β) (es : List ε) :
    overwrite write (overwrite write f es) es = overwrite write f es := by
  funext x
  simp only [overwrite_apply]
  cases lastWrite write es x <;> rfl

end LastWriter

section Hash

theorem assign_eq_overwrite (h : τ → Option τ) (fields : List (τ × τ)) :
    assign h fields =
      overwrite (fun field x ↦ if x = field.1 then some (some field.2) else none) h fields := by
  rw [assign, overwrite]
  congr
  funext h field x
  by_cases hx : x = field.1 <;> simp [hx]

theorem assign_assign (h : τ → Option τ) (fields : List (τ × τ)) :
    assign (assign h fields) fields = assign h fields := by
  simp only [assign_eq_overwrite, overwrite_overwrite]

theorem assign_append (h : τ → Option τ) (fields fields' : List (τ × τ)) :
    assign h (fields ++ fields') = assign (assign h fields) fields' :=
  List.foldl_append

theorem assign_of_notMem {h : τ → Option τ} {fields : List (τ × τ)} {x : τ}
    (hx : x ∉ fields.map Prod.fst) : assign h fields x = h x := by
  induction fields generalizing h with
  | nil => rfl
  | cons field fields ih =>
    simp only [List.map_cons, List.mem_cons, not_or] at hx
    refine (ih hx.2).trans ?_
    simp [hx.1]

theorem assign_of_mem {h : τ → Option τ} {fields : List (τ × τ)} {x y : τ}
    (hnodup : (fields.map Prod.fst).Nodup) (hmem : (x, y) ∈ fields) :
    assign h fields x = some y := by
  obtain ⟨before, rest, rfl⟩ := List.append_of_mem hmem
  rw [assign_append]
  have hrest : x ∉ rest.map Prod.fst := by
    simp only [List.map_append, List.map_cons] at hnodup
    exact (List.nodup_cons.mp (List.nodup_append.mp hnodup).2.1).1
  refine (assign_of_notMem hrest).trans ?_
  simp

def fieldsOf : List (Op τ) → List (τ × τ)
  | [] => []
  | .hmset fields :: ops => fields ++ fieldsOf ops
  | _ :: ops => fieldsOf ops

omit [DecidableEq τ] in
theorem fieldsOf_append (ops ops' : List (Op τ)) :
    fieldsOf (ops ++ ops') = fieldsOf ops ++ fieldsOf ops' := by
  induction ops with
  | nil => rfl
  | cons op ops ih => cases op <;> simp [fieldsOf, ih]

theorem runOps_hash (h : τ → Option τ) (ops : List (Op τ)) :
    runOps (some (.hash h)) ops = some (.hash (assign h (fieldsOf ops))) := by
  induction ops generalizing h with
  | nil => rfl
  | cons op ops ih =>
    cases op with
    | hmset fields =>
      rw [fieldsOf, assign_append, ← ih]
      cases fields <;> rfl
    | sadd x => exact ih h
    | srem x => exact ih h

omit [DecidableEq κ] in
theorem runOps_string (x : τ) (ops : List (Op τ)) :
    runOps (some (.string x)) ops = some (.string x) := by
  induction ops with
  | nil => rfl
  | cons op ops ih =>
    cases op with
    | hmset fields => cases fields <;> exact ih
    | sadd x => exact ih
    | srem x => exact ih

end Hash

section Members

def Op.onMembers (S : Finset τ) : Op τ → Finset τ
  | hmset _ => S
  | sadd x => insert x S
  | srem x => S.erase x

abbrev members (S : Finset τ) (ops : List (Op τ)) : Finset τ := run Op.onMembers S ops

theorem members_append (S : Finset τ) (ops ops' : List (Op τ)) :
    members S (ops ++ ops') = members (members S ops) ops' := run_append S ops ops'

theorem members_of_hmset {S : Finset τ} {ops : List (Op τ)}
    (h : ∀ op ∈ ops, ∃ fields, op = .hmset fields) : members S ops = S := by
  induction ops with
  | nil => rfl
  | cons op ops ih =>
    obtain ⟨⟨fields, rfl⟩, hrest⟩ := List.forall_mem_cons.mp h
    exact ih hrest

def Op.writesMember : Op τ → τ → Option Bool
  | hmset _, _ => none
  | sadd y, x => if x = y then some true else none
  | srem y, x => if x = y then some false else none

theorem members_eq_overwrite (S : Finset τ) (ops : List (Op τ)) :
    (fun x ↦ decide (x ∈ members S ops)) =
      overwrite Op.writesMember (fun x ↦ decide (x ∈ S)) ops := by
  induction ops generalizing S with
  | nil => rfl
  | cons op ops ih =>
    have hop : (fun x ↦ decide (x ∈ op.onMembers S)) =
        fun x ↦ (op.writesMember x).getD (decide (x ∈ S)) := by
      funext x
      cases op with
      | hmset fields => rfl
      | sadd y => by_cases hx : x = y <;> simp [Op.onMembers, Op.writesMember, hx]
      | srem y => by_cases hx : x = y <;> simp [Op.onMembers, Op.writesMember, hx]
    exact (ih _).trans (congrArg (fun f ↦ overwrite Op.writesMember f ops) hop)

theorem members_members (S : Finset τ) (ops : List (Op τ)) :
    members (members S ops) ops = members S ops := by
  ext x
  have h := congrFun (members_eq_overwrite (members S ops) ops) x
  rw [members_eq_overwrite S ops, overwrite_overwrite, ← members_eq_overwrite] at h
  simpa using h

theorem mem_onMembers {S : Finset τ} {op : Op τ} {x : τ} (hx : x ∈ S) (hop : op ≠ .srem x) :
    x ∈ op.onMembers S := by
  cases op with
  | hmset fields => exact hx
  | sadd y => exact Finset.mem_insert_of_mem hx
  | srem y => exact Finset.mem_erase.mpr ⟨fun hy ↦ hop (by rw [hy]), hx⟩

theorem mem_members {S : Finset τ} {ops : List (Op τ)} {x : τ} (hx : x ∈ S) (hlast : .srem x ∉ ops) :
    x ∈ members S ops := by
  apply run_invariant (C := fun _ op ↦ op ≠ .srem x) (I := fun S ↦ x ∈ S) _ hx
  · apply along_of_forall
    rintro op hop - rfl
    exact hlast hop
  · exact fun S op hS hop ↦ mem_onMembers hS hop

end Members

section Sets

omit [DecidableEq τ] in
theorem ofSet_empty : ofSet (∅ : Finset τ) = none := by simp [ofSet]

theorem after_sadd (S : Finset τ) (x : τ) : (Op.sadd x).after (ofSet S) = ofSet (insert x S) := by
  unfold ofSet
  split
  · rfl
  · rename_i h
    rw [Finset.not_nonempty_iff_eq_empty.mp h]
    rfl

theorem after_srem (S : Finset τ) (x : τ) : (Op.srem x).after (ofSet S) = ofSet (S.erase x) := by
  by_cases h : S.Nonempty
  · simp [ofSet, h, Op.after, Op.apply]
  · obtain rfl := Finset.not_nonempty_iff_eq_empty.mp h
    rfl

theorem after_hmset {S : Finset τ} {fields : List (τ × τ)} (h : fields = [] ∨ S.Nonempty) :
    (Op.hmset fields).after (ofSet S) = ofSet S := by
  cases fields with
  | nil => rfl
  | cons field fields =>
    have hS := h.resolve_left (List.cons_ne_nil _ _)
    simp [ofSet, hS, Op.after, Op.apply]

/-- No hash is written where the set has run empty. -/
def Blocked (S : Finset τ) (ops : List (Op τ)) : Prop :=
  Along Op.onMembers (fun S op ↦ ∀ fields, op = .hmset fields → fields = [] ∨ S.Nonempty) S ops

theorem runOps_of_blocked {S : Finset τ} {ops : List (Op τ)} (h : Blocked S ops) :
    runOps (ofSet S) ops = ofSet (members S ops) := by
  induction ops generalizing S with
  | nil => rfl
  | cons op ops ih =>
    have hop : op.after (ofSet S) = ofSet (op.onMembers S) := by
      cases op with
      | hmset fields => exact after_hmset (h.1 fields rfl)
      | sadd x => exact after_sadd S x
      | srem x => exact after_srem S x
    exact (congrArg (fun v ↦ runOps v ops) hop).trans (ih h.2)

theorem blocked_of_mem {S : Finset τ} {ops : List (Op τ)} {x : τ} (hx : x ∈ S)
    (hlast : .srem x ∉ ops) : Blocked S ops := by
  induction ops generalizing S with
  | nil => trivial
  | cons op ops ih =>
    simp only [List.mem_cons, not_or] at hlast
    exact ⟨fun _ _ ↦ .inr ⟨x, hx⟩, ih (mem_onMembers hx (Ne.symm hlast.1)) hlast.2⟩

/-- Every hash that is written is followed by the addition of a lasting member. -/
def Guarded (keep : τ) (ops : List (Op τ)) : Prop :=
  ∀ before fields rest, ops = before ++ .hmset fields :: rest → ∃ rest', rest = .sadd keep :: rest'

omit [DecidableEq τ] in
theorem guarded_of_no_hmset {keep : τ} {ops : List (Op τ)} (h : ∀ fields, .hmset fields ∉ ops) :
    Guarded keep ops := by
  rintro before fields rest rfl
  exact (h fields (by simp)).elim

omit [DecidableEq τ] in
theorem Guarded.hmset {keep : τ} {ops : List (Op τ)} (h : Guarded keep (.sadd keep :: ops))
    (fields : List (τ × τ)) : Guarded keep (.hmset fields :: .sadd keep :: ops) := by
  intro before fields' rest he
  cases before with
  | nil => exact ⟨ops, (List.cons.inj he).2.symm⟩
  | cons op before => exact h before fields' rest (List.cons.inj he).2

omit [DecidableEq τ] in
theorem Guarded.append {keep : τ} {ops ops' : List (Op τ)} (h : Guarded keep ops)
    (h' : Guarded keep ops') : Guarded keep (ops ++ ops') := by
  intro before fields rest he
  rcases List.append_eq_append_iff.mp he with ⟨mid, rfl, hmid⟩ | ⟨mid, rfl, hmid⟩
  · exact h' mid fields rest hmid
  · cases mid with
    | nil => exact h' [] fields rest hmid.symm
    | cons op mid =>
      obtain ⟨rfl, rfl⟩ := List.cons.inj hmid
      obtain ⟨rest', rfl⟩ := h before fields mid rfl
      exact ⟨rest' ++ ops', rfl⟩

omit [DecidableEq τ] in
theorem guarded_flatMap {α : Type} {keep : τ} {f : α → List (Op τ)} (h : ∀ a, Guarded keep (f a))
    (as : List α) : Guarded keep (as.flatMap f) := by
  induction as with
  | nil =>
    intro before fields rest he
    simp at he
  | cons a as ih => exact (h a).append ih

/-- Nothing is ever removed, or what stays guards every hash. -/
def Stable (ops : List (Op τ)) : Prop :=
  (∀ x, .srem x ∉ ops) ∨ ∃ keep, Guarded keep ops ∧ .srem keep ∉ ops

theorem Blocked.lasting {S : Finset τ} {ops : List (Op τ)} {fields : List (τ × τ)}
    (h : Blocked S ops) (hs : Stable ops) (hmem : .hmset fields ∈ ops) (hne : fields ≠ []) :
    ∃ x, x ∈ members S ops ∧ .srem x ∉ ops := by
  obtain ⟨before, rest, rfl⟩ := List.append_of_mem hmem
  rw [members_append]
  rcases hs with hnone | ⟨keep, hguard, hkeep⟩
  · obtain ⟨x, hx⟩ := ((along_append.mp h).2.1 fields rfl).resolve_left hne
    exact ⟨x, mem_members hx (fun hx ↦ hnone x (List.mem_append_right _ hx)), hnone x⟩
  · obtain ⟨rest', rfl⟩ := hguard before fields rest rfl
    have hin : keep ∈ members (insert keep (members S before)) rest' :=
      mem_members (Finset.mem_insert_self _ _) (fun hin ↦ hkeep (by simp [hin]))
    exact ⟨keep, hin, hkeep⟩

omit [DecidableEq τ] in
theorem Stable.before {before rest : List (Op τ)} {fields : List (τ × τ)}
    (h : Stable (before ++ .hmset fields :: rest)) : Stable before := by
  rcases h with hnone | ⟨keep, hguard, hkeep⟩
  · exact .inl fun x hx ↦ hnone x (List.mem_append_left _ hx)
  · refine .inr ⟨keep, ?_, fun hin ↦ hkeep (List.mem_append_left _ hin)⟩
    rintro first fields' second rfl
    obtain ⟨rest', hrest⟩ := hguard first fields' (second ++ .hmset fields :: rest) (by simp)
    cases second with
    | nil => simp at hrest
    | cons op second => exact ⟨second, by rw [(List.cons.inj hrest).1]⟩

omit [DecidableEq τ] in
theorem fieldsOf_eq_nil {ops : List (Op τ)} (h : ∀ fields, .hmset fields ∈ ops → fields = []) :
    fieldsOf ops = [] := by
  induction ops with
  | nil => rfl
  | cons op ops ih =>
    have hrest := ih fun fields hin ↦ h fields (List.mem_cons_of_mem _ hin)
    cases op with
    | hmset fields => rw [fieldsOf, h fields List.mem_cons_self, hrest, List.nil_append]
    | sadd x => exact hrest
    | srem x => exact hrest

theorem runOps_met {S : Finset τ} {before rest : List (Op τ)} {fields : List (τ × τ)}
    (hbefore : Blocked S before) (hempty : members S before = ∅) (hne : fields ≠ []) :
    runOps (ofSet S) (before ++ .hmset fields :: rest) =
      some (.hash (assign (fun _ ↦ none) (fields ++ fieldsOf rest))) := by
  have hfirst : (Op.hmset fields).after none = some (.hash (assign (fun _ ↦ none) fields)) := by
    cases fields with
    | nil => exact (hne rfl).elim
    | cons field fields => rfl
  rw [runOps_append, runOps_of_blocked hbefore, hempty, ofSet_empty, assign_append,
    ← runOps_hash, ← hfirst]
  rfl

/-- Doing a stable list of operations again changes nothing. -/
theorem runOps_runOps {ops : List (Op τ)} (hs : Stable ops) (v : Option (Value τ)) :
    runOps (runOps v ops) ops = runOps v ops := by
  have hset (S : Finset τ) : runOps (runOps (ofSet S) ops) ops = runOps (ofSet S) ops := by
    rcases along_or_first _ S ops with hb | ⟨before, op, rest, rfl, hbefore, hfail⟩
    · have hagain : Blocked (members S ops) ops := by
        by_cases hno : ∀ fields, .hmset fields ∈ ops → fields = []
        · exact along_of_forall (fun op hop _ fields he ↦ .inl (hno fields (he ▸ hop))) _
        · push Not at hno
          obtain ⟨fields, hmem, hne⟩ := hno
          obtain ⟨x, hx, hlast⟩ := Blocked.lasting hb hs hmem hne
          exact blocked_of_mem hx hlast
      rw [runOps_of_blocked hb, runOps_of_blocked hagain, members_members]
    · push Not at hfail
      obtain ⟨fields, rfl, hne, hempty⟩ := hfail
      have hempty : members S before = ∅ := by simpa using hempty
      have hno : fieldsOf before = [] := by
        apply fieldsOf_eq_nil
        intro fields' hmem
        by_contra hne'
        obtain ⟨x, hx, -⟩ := Blocked.lasting hbefore hs.before hmem hne'
        rw [hempty] at hx
        simp at hx
      rw [runOps_met hbefore hempty hne, runOps_hash, fieldsOf_append, hno]
      simp only [fieldsOf, List.nil_append, assign_assign]
  rcases v with _ | v
  · simpa only [ofSet_empty] using hset ∅
  · cases v with
    | string x => simp only [runOps_string]
    | hash h => simp only [runOps_hash, assign_assign]
    | set S hS => simpa only [ofSet, hS, dif_pos] using hset S

theorem run_perform_twice {cs : List (Command κ τ)} (h : ∀ key, Stable (opsOn key cs))
    (store : Store κ τ) : run perform (run perform store cs) cs = run perform store cs := by
  funext key
  simp only [run_perform_apply, runOps_runOps (h key)]

end Sets

section Cutting

variable {before rest : List (Op τ)} {fields : List (τ × τ)}

theorem assign_again {h : τ → Option τ} {written : List (τ × τ)} (hsame : assign h written = h)
    (fields : List (τ × τ)) :
    assign (assign h fields) (written ++ fields) = assign h fields := by
  rw [assign_append]
  simp only [assign_eq_overwrite] at hsame ⊢
  funext x
  have hx := congrFun hsame x
  rw [overwrite_apply] at hx
  simp only [overwrite_apply]
  cases lastWrite _ fields x with
  | some y => rfl
  | none => exact hx

theorem fieldsOf_of_none {ops : List (Op τ)} (hs : Stable ops) {v : Option (Value τ)}
    (h : runOps v ops = none) : fieldsOf ops = [] := by
  have hset {S : Finset τ} (h : runOps (ofSet S) ops = none) : fieldsOf ops = [] := by
    apply fieldsOf_eq_nil
    intro fields hmem
    by_contra hne
    rcases along_or_first _ S ops with hb | ⟨before, op, rest, rfl, hbefore, hfail⟩
    · obtain ⟨x, hx, -⟩ := Blocked.lasting hb hs hmem hne
      rw [runOps_of_blocked hb, ofSet, dif_pos ⟨x, hx⟩] at h
      cases h
    · push Not at hfail
      obtain ⟨fields', rfl, hne', hempty⟩ := hfail
      rw [runOps_met hbefore (by simpa using hempty) hne'] at h
      cases h
  cases v with
  | none => exact hset (by rwa [ofSet_empty])
  | some v =>
    cases v with
    | string x => rw [runOps_string] at h; cases h
    | hash f => rw [runOps_hash] at h; cases h
    | set S hS => exact hset (by rwa [ofSet, dif_pos hS])

theorem runOps_runOps_hmset (hs : Stable before) (v : Option (Value τ)) :
    runOps (runOps v (before ++ [.hmset fields])) (before ++ [.hmset fields]) =
      runOps v (before ++ [.hmset fields]) := by
  have hsame := runOps_runOps hs v
  rw [runOps_append v]
  cases hu : runOps v before with
  | none =>
    rw [hu] at hsame
    cases fields with
    | nil =>
      rw [runOps_append]
      exact congrArg (fun u ↦ runOps u [.hmset []]) hsame
    | cons field fields =>
      change runOps (some (.hash (assign (fun _ ↦ none) (field :: fields)))) _ = _
      rw [runOps_hash, fieldsOf_append, fieldsOf_of_none hs hu]
      simp only [fieldsOf, List.nil_append, List.append_nil]
      rw [assign_assign]
      rfl
  | some u =>
    cases u with
    | string x => simp only [runOps_string]
    | hash f =>
      rw [hu, runOps_hash] at hsame
      have hf : assign f (fieldsOf before) = f := Value.hash.inj (Option.some.inj hsame)
      rw [runOps_hash, runOps_hash, fieldsOf_append]
      simp only [fieldsOf, List.append_nil]
      rw [assign_again hf]
    | set S hS =>
      have hstays : runOps (some (.set S hS)) [.hmset fields] = some (.set S hS) := by
        cases fields <;> rfl
      rw [hu] at hsame
      rw [hstays, runOps_append, hsame, hstays]

/-- A stable list of operations that was broken off and is done again from its
start comes to the same as done once. -/
theorem runOps_resume (hs : Stable (before ++ rest)) (v : Option (Value τ)) :
    runOps (runOps v before) (before ++ rest) = runOps v (before ++ rest) := by
  suffices h : runOps (runOps v before) before = runOps v before by
    rw [runOps_append, h, ← runOps_append]
  rcases hs with hnone | ⟨keep, hguard, hkeep⟩
  · exact runOps_runOps (.inl fun x hx ↦ hnone x (List.mem_append_left _ hx)) v
  · by_cases hbefore : Guarded keep before
    · exact runOps_runOps (.inr ⟨keep, hbefore, fun hx ↦ hkeep (List.mem_append_left _ hx)⟩) v
    · simp only [Guarded, not_forall] at hbefore
      obtain ⟨first, fields, second, rfl, hopen⟩ := hbefore
      obtain ⟨rest', hrest⟩ := hguard first fields (second ++ rest) (by simp)
      cases second with
      | nil =>
        have hwhole : Stable (first ++ .hmset fields :: rest) :=
          .inr ⟨keep, by simpa using hguard, by simpa using hkeep⟩
        exact runOps_runOps_hmset hwhole.before v
      | cons op second =>
        exact absurd ⟨second, by rw [(List.cons.inj hrest).1]⟩ hopen

theorem run_perform_resume {before rest : List (Command κ τ)}
    (h : ∀ key, Stable (opsOn key (before ++ rest))) (store : Store κ τ) :
    run perform (run perform store before) (before ++ rest) = run perform store (before ++ rest) := by
  funext key
  have hkey := h key
  have hops : opsOn key (before ++ rest) = opsOn key before ++ opsOn key rest := by
    rw [opsOn, List.filter_append, List.map_append]
    rfl
  simp only [run_perform_apply]
  rw [hops] at hkey ⊢
  exact runOps_resume hkey (store key)

end Cutting

section Success

def Op.succeeds (op : Op τ) (v : Option (Value τ)) : Bool := (op.apply v).isSome

abbrev Succeed (store : Store κ τ) (cs : List (Command κ τ)) : Prop :=
  Along perform (fun store c ↦ c.op.succeeds (store c.key) = true) store cs

abbrev OpsSucceed (v : Option (Value τ)) (ops : List (Op τ)) : Prop :=
  Along (fun v op ↦ Op.after op v) (fun v op ↦ op.succeeds v = true) v ops

theorem Succeed.on {store : Store κ τ} {cs : List (Command κ τ)} (h : Succeed store cs) (key : κ) :
    OpsSucceed (store key) (opsOn key cs) := by
  induction cs generalizing store with
  | nil => trivial
  | cons c cs ih =>
    have hrest := ih h.2
    by_cases hk : c.key = key
    · subst hk
      simpa [opsOn, perform, Along] using ⟨h.1, by simpa [opsOn, perform] using hrest⟩
    · simpa [opsOn, perform, hk, Ne.symm hk] using hrest

theorem Op.hmset_after {fields : List (τ × τ)} {v : Option (Value τ)}
    (hok : (Op.hmset fields).succeeds v = true) :
    ∃ h, (Op.hmset fields).after v = some (.hash (assign h fields)) := by
  cases fields with
  | nil => cases hok
  | cons field fields =>
    rcases v with _ | v
    · exact ⟨_, rfl⟩
    · cases v with
      | hash h => exact ⟨h, rfl⟩
      | string x => cases hok
      | set S hS => cases hok

theorem hmset_of_succeeds {h : τ → Option τ} {ops : List (Op τ)}
    (hok : OpsSucceed (some (.hash h)) ops) : ∀ op ∈ ops, ∃ fields, op = .hmset fields := by
  induction ops generalizing h with
  | nil => simp
  | cons op ops ih =>
    cases op with
    | hmset fields =>
      cases fields with
      | nil => cases hok.1
      | cons field fields => exact List.forall_mem_cons.mpr ⟨⟨_, rfl⟩, ih hok.2⟩
    | sadd x => cases hok.1
    | srem x => cases hok.1

/-- The set is still a set, or it has run empty and a hash has taken its place
for good. -/
def SetOrHash (S : Finset τ) (ops : List (Op τ)) : Prop :=
  (∀ fields, .hmset fields ∉ ops) ∧ runOps (ofSet S) ops = ofSet (members S ops) ∨
    ∃ before fields rest h, ops = before ++ .hmset fields :: rest ∧
      (∀ op ∈ rest, ∃ fields, op = .hmset fields) ∧ runOps (ofSet S) ops = some (.hash h)

theorem SetOrHash.cons {S : Finset τ} {op : Op τ} {ops : List (Op τ)}
    (h : SetOrHash (op.onMembers S) ops) (hop : op.after (ofSet S) = ofSet (op.onMembers S))
    (hno : ∀ fields, op ≠ .hmset fields) : SetOrHash S (op :: ops) := by
  have hrun : runOps (ofSet S) (op :: ops) = runOps (ofSet (op.onMembers S)) ops :=
    congrArg (fun v ↦ runOps v ops) hop
  rcases h with ⟨hnone, he⟩ | ⟨before, fields, rest, h, rfl, hrest, he⟩
  · refine .inl ⟨fun fields hin ↦ ?_, hrun.trans he⟩
    rcases List.mem_cons.mp hin with heq | hin
    · exact hno fields heq.symm
    · exact hnone fields hin
  · exact .inr ⟨op :: before, fields, rest, h, rfl, hrest, hrun.trans he⟩

theorem hmset_on_empty {S : Finset τ} {fields : List (τ × τ)}
    (h : (Op.hmset fields).succeeds (ofSet S) = true) :
    (Op.hmset fields).after (ofSet S) = some (.hash (assign (fun _ ↦ none) fields)) := by
  by_cases hS : S.Nonempty <;> cases fields <;>
    simp [ofSet, hS, Op.succeeds, Op.after, Op.apply] at h ⊢

theorem setOrHash_of_succeeds {S : Finset τ} {ops : List (Op τ)} (hok : OpsSucceed (ofSet S) ops) :
    SetOrHash S ops := by
  induction ops generalizing S with
  | nil => exact .inl ⟨by simp, rfl⟩
  | cons op ops ih =>
    obtain ⟨hone, hrest⟩ : op.succeeds (ofSet S) = true ∧ OpsSucceed (op.after (ofSet S)) ops := hok
    cases op with
    | sadd x =>
      rw [after_sadd] at hrest
      have h : SetOrHash ((Op.sadd x).onMembers S) ops := ih hrest
      exact h.cons (after_sadd S x) (by simp)
    | srem x =>
      rw [after_srem] at hrest
      have h : SetOrHash ((Op.srem x).onMembers S) ops := ih hrest
      exact h.cons (after_srem S x) (by simp)
    | hmset fields =>
      have hhash := hmset_on_empty hone
      rw [hhash] at hrest
      have hrun := (congrArg (fun v ↦ runOps v ops) hhash).trans (runOps_hash _ ops)
      exact .inr ⟨[], fields, ops, _, rfl, hmset_of_succeeds hrest, hrun⟩

theorem runOps_of_guarded {S : Finset τ} {ops : List (Op τ)} {keep : τ}
    (hok : OpsSucceed (ofSet S) ops) (hguard : Guarded keep ops) :
    runOps (ofSet S) ops = ofSet (members S ops) := by
  rcases setOrHash_of_succeeds hok with ⟨-, he⟩ | ⟨before, fields, rest, h, rfl, hrest, -⟩
  · exact he
  · obtain ⟨rest', rfl⟩ := hguard before fields rest rfl
    obtain ⟨fields', he⟩ := hrest (.sadd keep) List.mem_cons_self
    cases he

omit [DecidableEq τ] in
theorem ofSet_inj {S T : Finset τ} : ofSet S = ofSet T ↔ S = T := by
  refine ⟨fun h ↦ ?_, fun h ↦ by rw [h]⟩
  by_cases hS : S.Nonempty <;> by_cases hT : T.Nonempty <;> simp_all [ofSet]

omit [DecidableEq τ] in
theorem ofSet_ne_hash (S : Finset τ) (h : τ → Option τ) : ofSet S ≠ some (.hash h) := by
  unfold ofSet
  split <;> simp

end Success

end Calcsig.Foundation.TypedStore
