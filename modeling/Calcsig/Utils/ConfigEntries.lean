import Calcsig.Foundation.Runs
import Calcsig.Utils.ConfigRoundTrip

namespace Calcsig.Utils.ConfigEntries

open Foundation.Text Foundation.Lines Foundation.Runs Utils.Config Utils.ConfigRoundTrip

variable {key value : Str}

def start (config : Sections) : Parser := ⟨config, [], Map.empty⟩

/-- Between the two states the value has been recorded under its key in the
current section, which has stayed the same. -/
structure Recorded (s s' : Parser) (key value : Str) : Prop where
  config_eq : s'.config = s.config
  section_eq : s'.curKey = s.curKey
  entry : s'.tempMap = s.tempMap.insert key value

theorem tempMap_of_bracket (s : Parser) (hhash : '#' ∉ key ++ '=' :: value) (h : '[' ∈ value) :
    (parseText s (key ++ '=' :: value)).tempMap = Map.empty := by
  obtain ⟨left, hleft⟩ := exists_find_of_mem (c := '[') (s := key ++ '=' :: value) (by simp [h])
  obtain ⟨pos, hpos⟩ := exists_find_of_mem (c := '=') (s := key ++ '=' :: value) (by simp)
  simp [parseText, find_eq_none_iff.mpr hhash, hleft, hpos]

theorem parseLine_recorded_iff (s : Parser) (hkey : FreeOf [' ', '#', '=', '[', ']'] key)
    (hvalue : FreeOf [' ', '#'] value) :
    Recorded s (parseLine s (key ++ '=' :: value)) key value ↔ '[' ∉ value := by
  simp only [FreeOf, List.mem_cons, List.not_mem_nil, or_false, forall_eq_or_imp, forall_eq]
    at hkey hvalue
  have hhash : '#' ∉ key ++ '=' :: value := by simp [hkey, hvalue]
  have hline : uncomment (key ++ '=' :: value) = key ++ '=' :: value := by
    simpa only [written, List.append_nil] using uncomment_written hhash none
  rw [parseLine, hline]
  constructor
  · intro h hleft
    have hentry := congrFun h.entry key
    rw [tempMap_of_bracket s hhash hleft] at hentry
    cases hk : s.tempMap key <;> simp [Map.insert, Map.empty, hk] at hentry
  · intro hleft
    rw [parseText_entry s hkey.2.2.1 hhash (by simp [hkey, hleft])]
    exact ⟨rfl, rfl, rfl⟩

theorem readLines_of_free (fuel : ℕ) {lines : List Str} (h : ∀ line ∈ lines, ' ' ∉ line)
    (s : Parser) : readLines fuel lines s = .done (lines.foldl parseLine s) := by
  rw [readLines_eq, if_neg]
  rintro ⟨line, hline, hspace⟩
  exact h line hline hspace

section Kept

variable {name : Str} {s : Parser}

def Kept (name key value : Str) (s : Parser) : Prop :=
  (s.curKey = name ∧ s.config name = none ∧ s.tempMap key = some value) ∨
    ∃ entries, s.config name = some entries ∧ entries key = some value

theorem insert_of_some {α : Type} {m : Map α} {k : Str} {v : α} (h : m k = some v) (k' : Str)
    (v' : α) : m.insert k' v' k = some v := by
  rw [Map.insert, h, Option.some_or]

theorem kept_store (h : Kept name key value s) :
    ∃ entries, s.store name = some entries ∧ entries key = some value := by
  rcases h with ⟨rfl, hnew, hentry⟩ | ⟨entries, hstored, hentry⟩
  · exact ⟨s.tempMap, by simp [Parser.store, Map.insert, hnew], hentry⟩
  · exact ⟨entries, insert_of_some hstored _ _, hentry⟩

theorem kept_parseText (hname : name ≠ []) (h : Kept name key value s) (instr : Str) :
    Kept name key value (parseText s instr) := by
  unfold parseText
  split
  · exact h
  split
  · exact h
  split
  · -- a header puts the section that was being read into the configuration
    refine .inr ?_
    by_cases hcur : s.curKey = []
    · obtain ⟨rfl, -⟩ | hstored := h
      · exact absurd hcur hname
      · simpa [hcur] using hstored
    · simpa [hcur] using kept_store h
  · split
    · exact h
    · rcases h with ⟨hcur, hnew, hentry⟩ | hstored
      · exact .inl ⟨hcur, hnew, insert_of_some hentry _ _⟩
      · exact .inr hstored

theorem kept_lines (hname : name ≠ []) (h : Kept name key value s) (lines : List Str) :
    Kept name key value (run parseLine s lines) :=
  run_keeps (I := Kept name key value)
    (fun _ line hs ↦ kept_parseText hname hs (uncomment line)) h lines

end Kept

theorem stored_of_recorded {s s' : Parser} (h : Recorded s s' key value) (hname : s.curKey ≠ [])
    (hnew : s.config s.curKey = none) (after : List Str) :
    ∃ entries, (after.foldl parseLine s').store s.curKey = some entries ∧
      entries key = some ((s.tempMap key).getD value) := by
  refine kept_store (kept_lines hname (.inl ⟨h.section_eq, ?_, ?_⟩) after)
  · rw [h.config_eq, hnew]
  · rw [h.entry, Map.insert, if_pos rfl]
    cases s.tempMap key <;> rfl

/-- Wherever the line comes in a file without spaces, it is taken for an entry
of the current section exactly when there is no opening bracket in its value. -/
theorem entry_recorded_iff (content : Str) (config : Sections) (before after : List Str)
    (key value : Str) (hspace : ' ' ∉ content)
    (hlines : getlines content = before ++ (key ++ '=' :: value) :: after)
    (hkey : FreeOf [' ', '#', '=', '[', ']'] key) (hvalue : FreeOf [' ', '#'] value) :
    ∃ (s s' : Parser) (config' : Sections),
      (∀ fuel, readLines fuel before (start config) = .done s) ∧
      (∀ fuel, readLines fuel (before ++ [key ++ '=' :: value]) (start config) = .done s') ∧
      (∀ fuel, loadConfig fuel (some content) config = .done (0, config')) ∧
      (Recorded s s' key value ↔ '[' ∉ value) ∧
      (Recorded s s' key value → s.curKey ≠ [] → s.config s.curKey = none →
        ∃ entries, config' s.curKey = some entries ∧
          entries key = some ((s.tempMap key).getD value)) := by
  have hfree : ∀ line ∈ getlines content, ' ' ∉ line := fun line hline hmem ↦
    hspace ((mem_iff_getlines (by decide) content).mpr ⟨line, hline, hmem⟩)
  rw [hlines] at hfree
  set s := before.foldl parseLine (start config) with hs
  set s' := parseLine s (key ++ '=' :: value) with hs'
  refine ⟨s, s', (after.foldl parseLine s').store, fun fuel ↦ ?_, fun fuel ↦ ?_, fun fuel ↦ ?_,
    parseLine_recorded_iff s hkey hvalue, fun h hname hnew ↦ stored_of_recorded h hname hnew after⟩
  · exact readLines_of_free fuel (fun line hline ↦ hfree line (by simp [hline])) _
  · rw [readLines_of_free fuel (fun line hline ↦ hfree line ?_), List.foldl_append, ← hs]
    · rfl
    · rcases List.mem_append.mp hline with h | h
      · simp [h]
      · simp [List.mem_singleton.mp h]
  · rw [loadConfig_eq, if_neg hspace, hlines, List.foldl_append, List.foldl_cons, hs', hs]
    rfl

theorem entry_recorded_iff_instance :
    ∃ config' : Sections, loadConfig 1 (some "[a]\nk=v]\nm=1\n".toList) Map.empty =
        .done (0, config') ∧
      ∃ entries, config' "a".toList = some entries ∧ entries "k".toList = some "v]".toList := by
  obtain ⟨s, s', config', hs, -, hload, hrecorded, hstored⟩ := entry_recorded_iff
    "[a]\nk=v]\nm=1\n".toList Map.empty ["[a]".toList] ["m=1".toList] "k".toList "v]".toList
    (by decide +kernel) (by decide +kernel) (by decide) (by decide)
  obtain rfl : ⟨Map.empty, "a".toList, Map.empty⟩ = s := Outcome.done.inj (hs 1)
  exact ⟨config', hload 1, hstored (hrecorded.mpr (by decide)) (by decide) rfl⟩

/-- The section `a` loses its entry `k`, and the entry that follows goes to a
section `v` that the file does not have. -/
theorem entry_taken_for_header :
    ∃ config : Sections, loadConfig 1 (some "[a]\nk=[v]\nm=1\n".toList) Map.empty =
        .done (0, config) ∧
      (config "a".toList).bind (· "k".toList) = none ∧
      (config "v".toList).bind (· "m".toList) = some "1".toList := by
  rw [loadConfig_eq, if_neg (by decide +kernel)]
  exact ⟨_, rfl, by decide +kernel, by decide +kernel⟩

end Calcsig.Utils.ConfigEntries
