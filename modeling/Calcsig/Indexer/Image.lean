import Calcsig.Indexer.Passes

namespace Calcsig.Indexer.Image

open Foundation.Text Foundation.Runs Foundation.TypedStore Model Keys Passes

/-- The tables that matter to one record, its row, and what a pass over it would
find in its variables. -/
structure Snapshot where
  db : Database
  row : Row
  prior : Prior

def Snapshot.visit (snapshot : Snapshot) : Visit := ⟨snapshot.row, snapshot.prior⟩

def Snapshot.commands (config : Config) (type : ℕ) (snapshot : Snapshot) : List (Command Str Str) :=
  processRows config snapshot.db type (fun _ ↦ snapshot.prior) [snapshot.row]

structure Site where
  now : Snapshot
  store : Store Str Str

inductive Event
  | change (snapshot : Snapshot)
  | process

def step (config : Config) (type : ℕ) (s : Site) : Event → Site
  | .change snapshot => { s with now := snapshot }
  | .process => { s with store := run perform s.store (s.now.commands config type) }

def Reads (rid : ℕ) (snapshot : Snapshot) : Prop :=
  asUnsigned snapshot.row "id".toList = .ok (some rid)

/-- The record keeps its number, and its processing ends with no command failed. -/
def Sound (config : Config) (type rid : ℕ) (s : Site) : Event → Prop
  | .change snapshot => Reads rid snapshot
  | .process =>
    finishes (rowSteps config s.now.db type s.now.visit) = true ∧
      Succeed s.store (s.now.commands config type)

def passes (s : Site) : Event → List Snapshot
  | .change _ => []
  | .process => [s.now]

def policiesRead (type rid : ℕ) (snapshot : Snapshot) : List Str :=
  words "policy" (payRows snapshot.db type rid)

def productsRead (snapshot : Snapshot) : List Str :=
  match asUnsigned snapshot.row "audiosourceid".toList with
  | .ok audioSourceId =>
    words "id" (audioRows snapshot.db (audioSourceId.getD snapshot.prior.audioSourceId.toNat))
  | .error _ => []

section Purpose

variable (type rid : ℕ)

def policies (snapshot : Snapshot) : Finset Str :=
  ((selectPay snapshot.db type rid).filterMap (fun row ↦ cell row "policy".toList)).toFinset

def products (snapshot : Snapshot) : Finset Str :=
  match number snapshot.row "audiosourceid".toList with
  | none => ∅
  | some audioSourceId =>
    ((selectAudio snapshot.db audioSourceId).filterMap (fun row ↦ cell row "id".toList)).toFinset

/-- The set of the record's policies, or "none" for want of one. -/
def PayExact (s : Site) : Prop :=
  s.store (payKey (typeTable type) rid) =
    ofSet (if policies type rid s.now = ∅ then {"none".toList} else policies type rid s.now)

def AudioExact (s : Site) : Prop :=
  s.store (audioKey (typeTable type) rid) = ofSet (products s.now)

end Purpose

theorem none_notMem_policies (type rid : ℕ) (snapshot : Snapshot) :
    "none".toList ∉ policies type rid snapshot := by
  intro h
  obtain ⟨row, hrow, hcell⟩ := List.mem_filterMap.mp (List.mem_toFinset.mp h)
  have hpolicy : isPolicy snapshot.db row = true := by
    have hselect := (List.mem_filter.mp hrow).2
    simp only [Bool.and_eq_true] at hselect
    exact hselect.1.1
  simp only [isPolicy, hcell, snapshot.db.isNone_none] at hpolicy
  cases hpolicy

variable {config : Config} {type rid : ℕ} {s : Site} {past : List Snapshot}

/-- Where the sets of the record stand after the given passes. -/
structure Trail (type rid : ℕ) (s : Site) (past : List Snapshot) : Prop where
  reads : Reads rid s.now
  pay : ∃ S, s.store (payKey (typeTable type) rid) = ofSet S ∧
    S.erase "none".toList = (past.flatMap (policiesRead type rid)).toFinset.erase "none".toList
  audio : type = 0 →
    ("Audio".toList ∉ past.flatMap (policiesRead type rid) ∧
      s.store (audioKey (typeTable type) rid) = ofSet (past.flatMap productsRead).toFinset) ∨
    ("Audio".toList ∈ past.flatMap (policiesRead type rid) ∧
      ∃ h, s.store (audioKey (typeTable type) rid) = some (.hash h))

theorem trail_start {first : Snapshot} (h : Reads rid first) :
    Trail type rid ⟨first, fun _ ↦ none⟩ [] where
  reads := h
  pay := ⟨∅, ofSet_empty.symm, rfl⟩
  audio _ := .inl ⟨List.not_mem_nil, ofSet_empty.symm⟩

theorem Trail.record (h : Trail type rid s past) (hs : Sound config type rid s .process) :
    ∃ record, recordOf config type s.now.visit = .ok record ∧ record.rid = rid ∧
      finishes (attachedSteps config s.now.db type record) = true := by
  obtain ⟨record, hrecord, hfin⟩ := record_of_finishes hs.1
  obtain ⟨id, hid, hrid⟩ := (recordOf_eq_ok hrecord).1
  obtain rfl := Except.ok.inj (h.reads.symm.trans hid)
  exact ⟨record, hrecord, hrid, hfin⟩

theorem flatMap_read {f : Snapshot → List Str} (past : List Snapshot) (now : Snapshot) :
    (past ++ [now]).flatMap f = past.flatMap f ++ f now := by
  rw [List.flatMap_append, List.flatMap_singleton]

theorem pay_after (htype : type = 0 ∨ type = 1) (h : Trail type rid s past)
    (hs : Sound config type rid s .process) :
    ∃ S, (step config type s .process).store (payKey (typeTable type) rid) = ofSet S ∧
      S.erase "none".toList =
        ((past ++ [s.now]).flatMap (policiesRead type rid)).toFinset.erase "none".toList ∧
      ("none".toList ∈ S ↔ payRows s.now.db type rid = []) := by
  obtain ⟨record, hrecord, rfl, hfin⟩ := h.record hs
  obtain ⟨S, hS, herase⟩ := h.pay
  refine ⟨_, pay_pass (fun _ ↦ s.now.prior) htype hrecord hfin hs.2 hS, ?_, ?_⟩
  · rw [flatMap_read, List.toFinset_append, policiesRead]
    split
    · rename_i hnil
      rw [hnil, Finset.erase_insert_eq_erase, herase]
      exact congrArg (Finset.erase · _) (Finset.union_empty _).symm
    · rw [Finset.erase_idem, Finset.erase_union_distrib, herase, ← Finset.erase_union_distrib]
  · split
    · rename_i hnil
      exact iff_of_true (Finset.mem_insert_self _ _) hnil
    · rename_i hne
      exact iff_of_false (Finset.notMem_erase _ _) hne

theorem audio_after (h : Trail 0 rid s past) (hs : Sound config 0 rid s .process) :
    ("Audio".toList ∉ (past ++ [s.now]).flatMap (policiesRead 0 rid) ∧
      (step config 0 s .process).store (audioKey (typeTable 0) rid) =
        ofSet ((past ++ [s.now]).flatMap productsRead).toFinset) ∨
    ("Audio".toList ∈ (past ++ [s.now]).flatMap (policiesRead 0 rid) ∧
      ∃ h, (step config 0 s .process).store (audioKey (typeTable 0) rid) = some (.hash h)) := by
  obtain ⟨record, hrecord, rfl, hfin⟩ := h.record hs
  obtain ⟨audioSourceId, haudio, hvalue⟩ := (recordOf_eq_ok hrecord).2.1
  have hread : productsRead s.now = words "id" (audioRows s.now.db record.audioSourceId) := by
    have hcolumn : asUnsigned s.now.row "audiosourceid".toList = .ok audioSourceId := haudio
    simp only [productsRead, hcolumn, hvalue]
    rfl
  simp only [flatMap_read, List.toFinset_append, List.mem_append, hread]
  rcases h.audio rfl with ⟨hno, hset⟩ | ⟨hyes, old, hhash⟩
  · rcases audio_pass (fun _ ↦ s.now.prior) hrecord hfin hs.2 hset with ⟨hno', he⟩ | ⟨hyes', he⟩
    · exact .inl ⟨fun h ↦ h.elim hno hno', he⟩
    · exact .inr ⟨.inr hyes', he⟩
  · refine .inr ⟨.inl hyes, ?_⟩
    simp only [step]
    rw [run_perform_apply, hhash, runOps_hash]
    exact ⟨_, rfl⟩

theorem trail_step (htype : type = 0 ∨ type = 1) (e : Event) (h : Trail type rid s past)
    (hs : Sound config type rid s e) : Trail type rid (step config type s e) (past ++ passes s e) := by
  cases e with
  | change snapshot =>
    rw [passes, List.append_nil]
    exact ⟨hs, h.pay, h.audio⟩
  | process =>
    obtain ⟨S, hS, herase, -⟩ := pay_after htype h hs
    refine ⟨h.reads, ⟨S, hS, herase⟩, ?_⟩
    rintro rfl
    exact audio_after h hs

theorem exact_iff {S P : Finset Str} {none : Str} {found : Prop} (hP : none ∉ P)
    (hnone : none ∈ S ↔ ¬ found) :
    S = (if P = ∅ then {none} else P) ↔ (found ↔ P ≠ ∅) ∧ S.erase none = P := by
  by_cases hempty : P = ∅
  · simp only [hempty, if_true, ne_eq, not_true_eq_false, iff_false, ← hnone]
    constructor
    · rintro rfl
      exact ⟨Finset.mem_singleton_self none, Finset.erase_singleton none⟩
    · rintro ⟨hmem, herase⟩
      rw [← Finset.insert_erase hmem, herase]
      rfl
  · simp only [hempty, if_false, ne_eq, not_false_eq_true, iff_true]
    constructor
    · rintro rfl
      exact ⟨not_not.mp (mt hnone.mpr hP), Finset.erase_eq_of_notMem hP⟩
    · rintro ⟨hfound, herase⟩
      rw [← herase, Finset.erase_eq_of_notMem fun hmem ↦ hnone.mp hmem hfound]

def siteAfter (config : Config) (type : ℕ) (first : Snapshot) (events : List Event) : Site :=
  run (step config type) ⟨first, fun _ ↦ none⟩ (events ++ [.process])

def history (config : Config) (type : ℕ) (first : Snapshot) (events : List Event) :
    List Snapshot :=
  trace (step config type) passes ⟨first, fun _ ↦ none⟩ (events ++ [.process])

/-- Right after a pass over the record its policies are exact if and only if what
all passes so far have read, "none" aside, is what the table holds now; and its
products if and only if no pass has read a policy "Audio" and the products that
all passes have read are those of now. -/
theorem image_exact_iff (config : Config) (type rid : ℕ) (first : Snapshot) (events : List Event)
    (htype : type = 0 ∨ type = 1) (hfirst : Reads rid first)
    (hsound : Along (step config type) (Sound config type rid) ⟨first, fun _ ↦ none⟩
      (events ++ [.process])) :
    (PayExact type rid (siteAfter config type first events) ↔
      (payRows (siteAfter config type first events).now.db type rid ≠ [] ↔
        policies type rid (siteAfter config type first events).now ≠ ∅) ∧
      ((history config type first events).flatMap (policiesRead type rid)).toFinset.erase
        "none".toList = policies type rid (siteAfter config type first events).now) ∧
    (type = 0 → (AudioExact type rid (siteAfter config type first events) ↔
      "Audio".toList ∉ (history config type first events).flatMap (policiesRead type rid) ∧
      ((history config type first events).flatMap productsRead).toFinset =
        products (siteAfter config type first events).now)) := by
  obtain ⟨hbefore, hlast, -⟩ := along_append.mp hsound
  have htrail : Trail type rid (run (step config type) ⟨first, fun _ ↦ none⟩ events)
      ([] ++ trace (step config type) passes ⟨first, fun _ ↦ none⟩ events) :=
    run_trace (fun _ _ e h hs ↦ trail_step htype e h hs) (trail_start hfirst) hbefore
  rw [List.nil_append] at htrail
  simp only [siteAfter, history, run_append, trace_append]
  constructor
  · obtain ⟨S, hS, herase, hnone⟩ := pay_after htype htrail hlast
    refine (Eq.congr_left hS).trans (ofSet_inj.trans ?_)
    refine (exact_iff (none_notMem_policies type rid _) (hnone.trans not_not.symm)).trans ?_
    rw [herase]
    rfl
  · rintro rfl
    rcases audio_after htrail hlast with ⟨hno, he⟩ | ⟨hyes, h, he⟩
    · refine (Eq.congr_left he).trans (ofSet_inj.trans ?_)
      exact (and_iff_right hno).symm
    · refine iff_of_false (fun hexact ↦ ?_) (fun h ↦ h.1 hyes)
      exact ofSet_ne_hash _ h (hexact.symm.trans he)

section Sample

def sampleConfig : Config := fun _ ↦ [("id".toList, "id".toList)]

def songRow : Row := [("id".toList, some "1".toList), ("audiosourceid".toList, some "0".toList)]

def payRow (policy : String) : Row :=
  [("id".toList, some "5".toList), ("type".toList, some "0".toList), ("rid".toList, some "1".toList),
    ("policy".toList, some policy.toList)]

def withPolicies (policies : List String) : Snapshot :=
  ⟨.binary (policies.map payRow) [], songRow, ⟨0, 0⟩⟩

def addition : List Event := [.process, .change (withPolicies ["vip", "gold"])]

theorem image_exact_iff_instance :
    PayExact 0 1 (siteAfter sampleConfig 0 (withPolicies ["vip"]) addition) := by
  refine (image_exact_iff sampleConfig 0 1 (withPolicies ["vip"]) addition (.inl rfl) rfl ?_).1.mpr
    ⟨?_, ?_⟩
  · exact ⟨⟨rfl, by decide +kernel⟩, rfl, ⟨rfl, by decide +kernel⟩, trivial⟩
  · exact iff_of_true (by decide +kernel) (by decide +kernel)
  · decide +kernel

def removal : List Event := [.process, .change (withPolicies [])]

theorem removed_policy_stays :
    Along (step sampleConfig 0) (Sound sampleConfig 0 1) ⟨withPolicies ["vip"], fun _ ↦ none⟩
        (removal ++ [.process]) ∧
      policies 0 1 (siteAfter sampleConfig 0 (withPolicies ["vip"]) removal).now = ∅ ∧
      (siteAfter sampleConfig 0 (withPolicies ["vip"]) removal).store (payKey (typeTable 0) 1) =
        ofSet {"none".toList, "vip".toList} := by
  refine ⟨⟨⟨rfl, by decide +kernel⟩, rfl, ⟨rfl, by decide +kernel⟩, trivial⟩, rfl, ?_⟩
  rfl

end Sample

end Calcsig.Indexer.Image
