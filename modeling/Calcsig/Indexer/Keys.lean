import Calcsig.Indexer.Model

namespace Calcsig.Indexer.Keys

open Foundation.Text Foundation.TypedStore Model

theorem payKey_eq (table : Str) (rid : ℕ) : payKey table rid = policyKey table "Pay".toList rid :=
  List.append_assoc _ _ _

theorem audioKey_eq (table : Str) (rid : ℕ) :
    audioKey table rid = policyKey table "Audio".toList rid :=
  List.append_assoc _ _ _

theorem productKey_eq (audioProductId : Str) :
    productKey audioProductId = "Audio".toList ++ ':' :: audioProductId := rfl

theorem colon_notMem_decimal (n : ℕ) : ':' ∉ decimal n := notMem_decimal (by decide) n

theorem policyKey_inj {table p p' : Str} {rid rid' : ℕ} :
    policyKey table p rid = policyKey table p' rid' ↔ p = p' ∧ rid = rid' := by
  rw [policyKey, policyKey, List.append_cancel_left_eq, List.cons.injEq,
    append_last_separator_inj (colon_notMem_decimal _) (colon_notMem_decimal _)]
  simp [decimal_injective.eq_iff]

theorem recordKey_inj {table : Str} {rid rid' : ℕ} :
    recordKey table rid = recordKey table rid' ↔ rid = rid' := by
  simp [recordKey, decimal_injective.eq_iff]

theorem recordKey_ne_policyKey (table p : Str) (rid rid' : ℕ) :
    recordKey table rid ≠ policyKey table p rid' := by
  rw [recordKey, policyKey, ne_eq, List.append_cancel_left_eq, List.cons.injEq, not_and]
  rintro - h
  apply colon_notMem_decimal rid
  rw [h]
  simp

theorem colon_notMem_typeTable (type : ℕ) : ':' ∉ typeTable type := by
  unfold typeTable
  split <;> decide

theorem typeTable_ne_audio (type : ℕ) : typeTable type ≠ "Audio".toList := by
  unfold typeTable
  split <;> decide

theorem productKey_ne (type : ℕ) (audioProductId rest : Str) :
    productKey audioProductId ≠ typeTable type ++ ':' :: rest := by
  rw [productKey_eq, ne_eq, append_separator_inj (by decide) (colon_notMem_typeTable type)]
  exact fun h ↦ typeTable_ne_audio type h.1.symm

theorem productKey_ne_policyKey (type : ℕ) (audioProductId p : Str) (rid : ℕ) :
    productKey audioProductId ≠ policyKey (typeTable type) p rid :=
  productKey_ne type audioProductId _

theorem productKey_ne_recordKey (type : ℕ) (audioProductId : Str) (rid : ℕ) :
    productKey audioProductId ≠ recordKey (typeTable type) rid :=
  productKey_ne type audioProductId _

def payOps (rid : ℕ) : Write → List (Op Str)
  | .policy rid' word fields =>
    if rid' = rid then
      (if word = "Pay".toList then [.hmset fields] else []) ++
        [.sadd word, .srem "none".toList]
    else []
  | .noPolicy rid' => if rid' = rid then [.sadd "none".toList] else []
  | _ => []

theorem guarded_payOps (rid : ℕ) (w : Write) : Guarded "Pay".toList (payOps rid w) := by
  have hplain (word : Str) : Guarded "Pay".toList [.sadd word, .srem "none".toList] :=
    guarded_of_no_hmset (by simp)
  cases w with
  | policy r word fields =>
    by_cases hr : r = rid
    · by_cases hw : word = "Pay".toList
      · rw [payOps, if_pos hr, if_pos hw, hw]
        exact (hplain "Pay".toList).hmset fields
      · rw [payOps, if_pos hr, if_neg hw]
        exact hplain word
    · rw [payOps, if_neg hr]
      exact guarded_of_no_hmset (by simp)
  | noPolicy r =>
    rw [payOps]
    split <;> exact guarded_of_no_hmset (by simp)
  | record r fields => exact guarded_of_no_hmset (by simp [payOps])
  | product r audioProductId fields => exact guarded_of_no_hmset (by simp [payOps])

def audioOps (rid : ℕ) : Write → List (Op Str)
  | .policy rid' word fields => if word = "Audio".toList ∧ rid' = rid then [.hmset fields] else []
  | .product rid' audioProductId _ => if rid' = rid then [.sadd audioProductId] else []
  | _ => []

def recordOps (rid : ℕ) : Write → List (Op Str)
  | .record rid' fields => if rid' = rid then [.hmset fields] else []
  | _ => []

theorem opsOn_recordKey (type rid : ℕ) (w : Write) :
    opsOn (recordKey (typeTable type) rid) (w.commands (typeTable type)) = recordOps rid w := by
  have hpolicy (p : Str) (r : ℕ) : policyKey (typeTable type) p r ≠ recordKey (typeTable type) rid :=
    (recordKey_ne_policyKey _ _ _ _).symm
  cases w with
  | record r fields =>
    simp only [Write.commands, opsOn_cons, opsOn_nil, recordOps, recordKey_inj]
  | policy r word fields =>
    simp only [Write.commands, opsOn_cons, opsOn_nil, recordOps, payKey_eq, hpolicy, if_false]
  | noPolicy r =>
    simp only [Write.commands, opsOn_cons, opsOn_nil, recordOps, payKey_eq, hpolicy, if_false]
  | product r audioProductId fields =>
    simp only [Write.commands, opsOn_cons, opsOn_nil, recordOps, audioKey_eq, hpolicy,
      productKey_ne_recordKey, if_false]

theorem opsOn_payKey (type rid : ℕ) (w : Write) :
    opsOn (payKey (typeTable type) rid) (w.commands (typeTable type)) = payOps rid w := by
  have hword : "Audio".toList ≠ "Pay".toList := by decide
  cases w with
  | record r fields =>
    simp only [Write.commands, opsOn_cons, opsOn_nil, payOps, payKey_eq, recordKey_ne_policyKey,
      if_false]
  | policy r word fields =>
    simp only [Write.commands, opsOn_cons, opsOn_nil, payOps, payKey_eq, policyKey_inj]
    by_cases hr : r = rid <;> by_cases hw : word = "Pay".toList <;> simp only [hr, hw] <;> rfl
  | noPolicy r =>
    simp only [Write.commands, opsOn_cons, opsOn_nil, payOps, payKey_eq, policyKey_inj, true_and]
  | product r audioProductId fields =>
    simp only [Write.commands, opsOn_cons, opsOn_nil, payOps, payKey_eq, audioKey_eq, policyKey_inj,
      productKey_ne_policyKey, hword, false_and, if_false]

theorem opsOn_audioKey (type rid : ℕ) (w : Write) :
    opsOn (audioKey (typeTable type) rid) (w.commands (typeTable type)) = audioOps rid w := by
  have hword : "Pay".toList ≠ "Audio".toList := by decide
  cases w with
  | record r fields =>
    simp only [Write.commands, opsOn_cons, opsOn_nil, audioOps, audioKey_eq, recordKey_ne_policyKey,
      if_false]
  | policy r word fields =>
    simp only [Write.commands, opsOn_cons, opsOn_nil, audioOps, payKey_eq, audioKey_eq,
      policyKey_inj, hword, false_and, if_false]
  | noPolicy r =>
    simp only [Write.commands, opsOn_cons, opsOn_nil, audioOps, payKey_eq, audioKey_eq,
      policyKey_inj, hword, false_and, if_false]
  | product r audioProductId fields =>
    simp only [Write.commands, opsOn_cons, opsOn_nil, audioOps, audioKey_eq, policyKey_inj,
      productKey_ne_policyKey, true_and, if_false]

end Calcsig.Indexer.Keys
