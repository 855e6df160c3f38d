import Calcsig.Indexer.Keys

namespace Calcsig.Indexer.KeySpace

open Foundation.Text Foundation.TypedStore Model Keys

inductive Table
  | music
  | album
  | artist
deriving DecidableEq

def Table.name : Table → Str
  | music => "Music".toList
  | album => "Album".toList
  | artist => "Artist".toList

def tableOf : ℕ → Table
  | 0 => .music
  | 1 => .album
  | 2 => .artist
  | _ => .music

theorem typeTable_eq (type : ℕ) : typeTable type = (tableOf type).name := by
  rcases type with _ | _ | _ | type <;> rfl

def word (text : Str) : Str := firstWord (cString text)

/-- What a key stands for. A policy and a product come with the text that is
stored in their column. -/
inductive Object
  | record (table : Table) (rid : ℕ)
  | payHash (table : Table) (policy : Str) (rid : ℕ)
  | paySet (table : Table) (rid : ℕ)
  | audioHash (audioProductId : Str)
  | audioSet (rid : ℕ)
deriving DecidableEq

def Object.key : Object → Str
  | record table rid => recordKey table.name rid
  | payHash table policy rid => policyKey table.name (word policy) rid
  | paySet table rid => payKey table.name rid
  | audioHash audioProductId => productKey (word audioProductId)
  | audioSet rid => audioKey Table.music.name rid

def Object.isHash : Object → Bool
  | record _ _ | payHash _ _ _ | audioHash _ => true
  | paySet _ _ | audioSet _ => false

/-- Two texts of a column that the conversion cannot tell apart. -/
inductive SameWord : Object → Object → Prop
  | policies (table : Table) {p p' : Str} (rid : ℕ) : p ≠ p' → word p = word p' →
      SameWord (.payHash table p rid) (.payHash table p' rid)
  | products {p p' : Str} : p ≠ p' → word p = word p' → SameWord (.audioHash p) (.audioHash p')

/-- A policy that is called like one of the sets. -/
inductive Reserved : Object → Object → Prop
  | pay (table : Table) {p : Str} (rid : ℕ) : word p = "Pay".toList →
      Reserved (.payHash table p rid) (.paySet table rid)
  | audio {p : Str} (rid : ℕ) : word p = "Audio".toList →
      Reserved (.payHash .music p rid) (.audioSet rid)

theorem colon_notMem_name (table : Table) : ':' ∉ table.name := by
  cases table <;> decide

theorem name_injective : Function.Injective Table.name := by
  intro table table' h
  cases table <;> cases table' <;> first | rfl | (revert h; decide)

theorem name_colon_inj {table table' : Table} {r r' : Str} :
    table.name ++ ':' :: r = table'.name ++ ':' :: r' ↔ table = table' ∧ r = r' := by
  rw [append_separator_inj (colon_notMem_name table) (colon_notMem_name table'),
    name_injective.eq_iff]

theorem name_ne_audio (table : Table) : "Audio".toList ≠ table.name := by
  cases table <;> decide

theorem productKey_ne_name (audioProductId : Str) (table : Table) (r : Str) :
    productKey audioProductId ≠ table.name ++ ':' :: r := by
  rw [productKey_eq, ne_eq, append_separator_inj (by decide) (colon_notMem_name table)]
  exact fun h ↦ name_ne_audio table h.1

theorem policyKey_name_inj {table table' : Table} {p p' : Str} {rid rid' : ℕ} :
    policyKey table.name p rid = policyKey table'.name p' rid' ↔
      table = table' ∧ p = p' ∧ rid = rid' := by
  constructor
  · intro h
    obtain rfl := (name_colon_inj.mp h).1
    exact ⟨rfl, policyKey_inj.mp h⟩
  · rintro ⟨rfl, rfl, rfl⟩
    rfl

theorem recordKey_name_inj {table table' : Table} {rid rid' : ℕ} :
    recordKey table.name rid = recordKey table'.name rid' ↔ table = table' ∧ rid = rid' := by
  constructor
  · intro h
    obtain rfl := (name_colon_inj.mp h).1
    exact ⟨rfl, recordKey_inj.mp h⟩
  · rintro ⟨rfl, rfl⟩
    rfl

theorem recordKey_ne_policyKey_name (table table' : Table) (p : Str) (rid rid' : ℕ) :
    recordKey table.name rid ≠ policyKey table'.name p rid' := by
  intro h
  obtain rfl := (name_colon_inj.mp h).1
  exact recordKey_ne_policyKey _ _ _ _ h

theorem productKey_inj {p p' : Str} : productKey p = productKey p' ↔ p = p' :=
  List.append_right_inj _

/-- What can be read back from a key. -/
inductive Shape
  | record (table : Table) (rid : ℕ)
  | under (table : Table) (label : Str) (rid : ℕ)
  | product (label : Str)

def Shape.key : Shape → Str
  | record table rid => recordKey table.name rid
  | under table label rid => policyKey table.name label rid
  | product label => productKey label

theorem shape_key_injective : Function.Injective Shape.key := by
  intro shape shape' h
  cases shape with
  | record table rid =>
    cases shape' with
    | record table' rid' =>
      obtain ⟨rfl, rfl⟩ := recordKey_name_inj.mp h
      rfl
    | under table' label rid' => exact (recordKey_ne_policyKey_name _ _ _ _ _ h).elim
    | product label => exact (productKey_ne_name _ _ _ h.symm).elim
  | under table label rid =>
    cases shape' with
    | record table' rid' => exact (recordKey_ne_policyKey_name _ _ _ _ _ h.symm).elim
    | under table' label' rid' =>
      obtain ⟨rfl, rfl, rfl⟩ := policyKey_name_inj.mp h
      rfl
    | product label' => exact (productKey_ne_name _ _ _ h.symm).elim
  | product label =>
    cases shape' with
    | record table rid => exact (productKey_ne_name _ _ _ h).elim
    | under table label' rid => exact (productKey_ne_name _ _ _ h).elim
    | product label' => exact congrArg Shape.product (productKey_inj.mp h)

def Object.shape : Object → Shape
  | record table rid => .record table rid
  | payHash table policy rid => .under table (word policy) rid
  | paySet table rid => .under table "Pay".toList rid
  | audioHash audioProductId => .product (word audioProductId)
  | audioSet rid => .under .music "Audio".toList rid

theorem key_eq_shape (o : Object) : o.key = o.shape.key := by
  cases o with
  | paySet table rid => exact payKey_eq _ _
  | audioSet rid => exact audioKey_eq _ _
  | _ => rfl

theorem key_eq_key_iff {o o' : Object} : o.key = o'.key ↔ o.shape = o'.shape := by
  rw [key_eq_shape, key_eq_shape, shape_key_injective.eq_iff]

theorem Reserved.shape_eq {o o' : Object} (h : Reserved o o') : o.shape = o'.shape := by
  cases h with
  | pay table rid hword => exact congrArg (Shape.under table · rid) hword
  | audio rid hword => exact congrArg (Shape.under .music · rid) hword

theorem SameWord.shape_eq {o o' : Object} (h : SameWord o o') : o.shape = o'.shape := by
  cases h with
  | policies table rid _ hword => exact congrArg (Shape.under table · rid) hword
  | products _ hword => exact congrArg Shape.product hword

theorem Reserved.ne {o o' : Object} (h : Reserved o o') : o ≠ o' := by
  cases h <;> exact nofun

theorem SameWord.ne {o o' : Object} (h : SameWord o o') : o ≠ o' := by
  cases h with
  | policies table rid hne _ => exact fun he ↦ hne (Object.payHash.inj he).2.1
  | products hne _ => exact fun he ↦ hne (Object.audioHash.inj he)

theorem payHash_cases {table : Table} {policy : Str} {rid : ℕ} {o : Object}
    (h : (Object.payHash table policy rid).shape = o.shape) :
    .payHash table policy rid = o ∨ SameWord (.payHash table policy rid) o ∨
      Reserved (.payHash table policy rid) o := by
  cases o with
  | payHash table' policy' rid' =>
    obtain ⟨rfl, hword, rfl⟩ := Shape.under.inj h
    by_cases hp : policy = policy'
    · exact .inl (by rw [hp])
    · exact .inr (.inl (.policies table rid hp hword))
  | paySet table' rid' =>
    obtain ⟨rfl, hword, rfl⟩ := Shape.under.inj h
    exact .inr (.inr (.pay table rid hword))
  | audioSet rid' =>
    obtain ⟨rfl, hword, rfl⟩ := Shape.under.inj h
    exact .inr (.inr (.audio rid hword))
  | record table' rid' => cases h
  | audioHash audioProductId => cases h

theorem set_cases {o o' : Object} (ho : o.isHash = false) (h : o.shape = o'.shape) :
    o = o' ∨ Reserved o' o := by
  have hwords : "Pay".toList ≠ "Audio".toList := by decide
  cases o' with
  | payHash table policy rid =>
    rcases payHash_cases h.symm with rfl | hsame | hreserved
    · cases ho
    · cases hsame
      cases ho
    · exact .inr hreserved
  | paySet table rid =>
    cases o with
    | paySet table' rid' =>
      obtain ⟨rfl, -, rfl⟩ := Shape.under.inj h
      exact .inl rfl
    | audioSet rid' => exact (hwords (Shape.under.inj h).2.1.symm).elim
    | _ => cases ho
  | audioSet rid =>
    cases o with
    | paySet table' rid' => exact (hwords (Shape.under.inj h).2.1).elim
    | audioSet rid' =>
      obtain ⟨-, -, rfl⟩ := Shape.under.inj h
      exact .inl rfl
    | _ => cases ho
  | record table rid =>
    cases o with
    | paySet _ _ | audioSet _ => cases h
    | _ => cases ho
  | audioHash audioProductId =>
    cases o with
    | paySet _ _ | audioSet _ => cases h
    | _ => cases ho

theorem shape_cases {o o' : Object} (h : o.shape = o'.shape) :
    o = o' ∨ SameWord o o' ∨ Reserved o o' ∨ Reserved o' o := by
  cases ho : o.isHash with
  | false => exact (set_cases ho h).imp_right (fun h ↦ .inr (.inr h))
  | true =>
    cases ho' : o'.isHash with
    | false =>
      rcases set_cases ho' h.symm with rfl | hreserved
      · exact .inl rfl
      · exact .inr (.inr (.inl hreserved))
    | true =>
      cases o with
      | payHash table policy rid =>
        exact (payHash_cases h).imp_right (Or.imp_right .inl)
      | record table rid =>
        cases o' with
        | record table' rid' =>
          obtain ⟨rfl, rfl⟩ := Shape.record.inj h
          exact .inl rfl
        | payHash _ _ _ | audioHash _ => cases h
        | _ => cases ho'
      | audioHash p =>
        cases o' with
        | audioHash p' =>
          by_cases hp : p = p'
          · exact .inl (by rw [hp])
          · exact .inr (.inl (.products hp (Shape.product.inj h)))
        | payHash _ _ _ | record _ _ => cases h
        | _ => cases ho'
      | _ => cases ho

/-- Two keys are equal for different objects exactly when the texts in them have
one and the same first word, or when a policy is called like a set; and a
key is that of a hash and of a set exactly in the latter case. -/
theorem keys_unambiguous_iff (o o' : Object) :
    ((o.key = o'.key → o = o') ↔ ¬ SameWord o o' ∧ ¬ Reserved o o' ∧ ¬ Reserved o' o) ∧
    (o.key = o'.key ∧ o.isHash = true ∧ o'.isHash = false ↔ Reserved o o') := by
  rw [key_eq_key_iff]
  constructor
  · constructor
    · intro h
      refine ⟨fun hs ↦ hs.ne (h hs.shape_eq), fun hr ↦ hr.ne (h hr.shape_eq), fun hr ↦ ?_⟩
      exact hr.ne (h hr.shape_eq.symm).symm
    · rintro ⟨hs, hr, hr'⟩ h
      rcases shape_cases h with heq | h | h | h
      · exact heq
      · exact (hs h).elim
      · exact (hr h).elim
      · exact (hr' h).elim
  · constructor
    · rintro ⟨h, ho, ho'⟩
      rcases set_cases ho' h.symm with rfl | hreserved
      · rw [ho] at ho'
        cases ho'
      · exact hreserved
    · intro hr
      refine ⟨hr.shape_eq, ?_⟩
      cases hr <;> exact ⟨rfl, rfl⟩

/-- A policy "Pay" has its hash where the set of the policies is. -/
theorem pay_policy_clashes :
    (Object.payHash .music "Pay".toList 1).key = (Object.paySet .music 1).key ∧
      (Object.payHash .music "Pay".toList 1).isHash = true ∧
      (Object.paySet .music 1).isHash = false := by
  decide

section Commands

variable {config : Config} {db : Database} {type : ℕ}

theorem asText_eq_word {row : Row} {name w : Str} (h : asText row name = .ok w) :
    ∃ text, w = word text := by
  unfold asText getValue at h
  split at h
  · cases h
  · cases h
    exact ⟨[], rfl⟩
  · cases h
    exact ⟨_, rfl⟩

def Addressed (c : Command Str Str) : Prop :=
  ∃ o : Object, c.key = o.key ∧ (o.isHash = true ↔ ∃ fields, c.op = .hmset fields)

theorem addressed_policy {rid : ℕ} {w : Str} {fields : List (Str × Str)} {c : Command Str Str}
    (hw : ∃ text, w = word text) (h : c ∈ (Write.policy rid w fields).commands (typeTable type)) :
    Addressed c := by
  obtain ⟨text, rfl⟩ := hw
  rw [typeTable_eq] at h
  simp only [Write.commands, List.mem_cons, List.not_mem_nil, or_false] at h
  rcases h with rfl | rfl | rfl
  · exact ⟨.payHash (tableOf type) text rid, rfl, by simp [Object.isHash]⟩
  · exact ⟨.paySet (tableOf type) rid, rfl, by simp [Object.isHash]⟩
  · exact ⟨.paySet (tableOf type) rid, rfl, by simp [Object.isHash]⟩

theorem addressed_noPolicy {rid : ℕ} {c : Command Str Str}
    (h : c ∈ (Write.noPolicy rid).commands (typeTable type)) : Addressed c := by
  rw [typeTable_eq] at h
  obtain rfl := List.mem_singleton.mp h
  exact ⟨.paySet (tableOf type) rid, rfl, by simp [Object.isHash]⟩

theorem addressed_product {rid : ℕ} {w : Str} {fields : List (Str × Str)} {c : Command Str Str}
    (hw : ∃ text, w = word text) (h : c ∈ (Write.product rid w fields).commands (typeTable 0)) :
    Addressed c := by
  obtain ⟨text, rfl⟩ := hw
  simp only [Write.commands, List.mem_cons, List.not_mem_nil, or_false] at h
  rcases h with rfl | rfl
  · exact ⟨.audioHash text, rfl, by simp [Object.isHash]⟩
  · exact ⟨.audioSet rid, rfl, by simp [Object.isHash]⟩

theorem addressed_record {rid : ℕ} {fields : List (Str × Str)} {c : Command Str Str}
    (h : c ∈ (Write.record rid fields).commands (typeTable type)) : Addressed c := by
  rw [typeTable_eq] at h
  obtain rfl := List.mem_singleton.mp h
  exact ⟨.record (tableOf type) rid, rfl, by simp [Object.isHash]⟩

theorem addressed_attached {record : Record} {w : Write} {c : Command Str Str}
    (hw : .ok w ∈ attachedSteps config db type record) (h : c ∈ w.commands (typeTable type)) :
    Addressed c := by
  rcases List.mem_append.mp hw with hpay | haudio
  · split at hpay
    · rcases mem_paySteps hpay with ⟨row, word, fields, hword, rfl⟩ | rfl
      · exact addressed_policy (asText_eq_word hword) h
      · exact addressed_noPolicy h
    · cases hpay
  · by_cases htype : type = 0
    · rw [if_pos htype] at haudio
      rw [htype] at h
      obtain ⟨row, word, fields, hword, rfl⟩ := mem_audioSteps haudio
      exact addressed_product (asText_eq_word hword) h
    · rw [if_neg htype] at haudio
      cases haudio

theorem processRows_addressed {prior : ℕ → Prior} {rows : List Row} {c : Command Str Str}
    (h : c ∈ processRows config db type prior rows) : Addressed c := by
  obtain ⟨w, hw, hc⟩ := List.mem_flatMap.mp h
  obtain ⟨visit, -, hrow⟩ := List.mem_flatMap.mp (mem_completed hw)
  unfold rowSteps at hrow
  split at hrow
  · cases List.mem_singleton.mp hrow
  · rcases List.mem_cons.mp hrow with he | hrow
    · cases he
      exact addressed_record hc
    · exact addressed_attached hrow hc

end Commands

end Calcsig.Indexer.KeySpace
