import Calcsig.Utils.Config

namespace Calcsig.Utils.ConfigRoundTrip

open Foundation.Text Foundation.Lines Utils.Config

variable {α : Type}

def FreeOf (banned : List Char) (s : Str) : Prop := ∀ c ∈ banned, c ∉ s

instance (banned : List Char) (s : Str) : Decidable (FreeOf banned s) :=
  List.decidableBAll (fun c ↦ c ∉ s) banned

/-- A comment, without its `#`. -/
structure Remark where
  text : Str
  free : FreeOf [' ', '\n'] text

def written : Option Remark → Str
  | none => []
  | some r => '#' :: r.text

/-- A blank line or a comment line. -/
structure Noise where
  blank : Str
  remark : Option Remark
  white : ∀ c ∈ blank, isSpace c = true ∧ c ≠ ' ' ∧ c ≠ '\n'

structure Entry where
  key : Str
  value : Str
  remark : Option Remark
  key_free : FreeOf [' ', '#', '=', '[', '\n'] key
  value_free : FreeOf [' ', '#', '[', '\n'] value

inductive Line
  | noise : Noise → Line
  | entry : Entry → Line

def Line.entry? : Line → Option Entry
  | .noise _ => none
  | .entry e => some e

structure Section where
  name : Str
  remark : Option Remark
  body : List Line
  name_ne : name ≠ []
  name_free : FreeOf [' ', '#', '[', ']', '\n'] name
  keys : ((body.filterMap Line.entry?).map Entry.key).Nodup

structure Document where
  leading : List Noise
  sections : List Section
  /-- whether the text ends in a newline -/
  closed : Bool
  sections_ne : sections ≠ []
  names : (sections.map Section.name).Nodup

def Noise.text (n : Noise) : Str := n.blank ++ written n.remark

def Entry.text (e : Entry) : Str := e.key ++ '=' :: e.value ++ written e.remark

def Line.text : Line → Str
  | .noise n => n.text
  | .entry e => e.text

namespace Section

def entries (s : Section) : List Entry := s.body.filterMap Line.entry?

def header (s : Section) : Str := '[' :: s.name ++ ']' :: written s.remark

def lines (s : Section) : List Str := s.header :: s.body.map Line.text

end Section

namespace Document

def lines (d : Document) : List Str :=
  d.leading.map Noise.text ++ d.sections.flatMap Section.lines

def text (d : Document) : Str :=
  ['\n'].intercalate d.lines ++ if d.closed then ['\n'] else []

end Document

section Separators

variable {c : Char}

theorem notMem_written (hc : c = ' ' ∨ c = '\n') (r : Option Remark) : c ∉ written r := by
  cases r with
  | none => simp [written]
  | some r =>
    have hhash : c ≠ '#' := by rcases hc with rfl | rfl <;> decide
    have hr := r.free c (by rcases hc with rfl | rfl <;> simp)
    simp [written, hhash, hr]

theorem Noise.notMem_text (hc : c = ' ' ∨ c = '\n') (n : Noise) : c ∉ n.text := by
  have hblank : c ∉ n.blank := by
    intro hmem
    rcases hc with rfl | rfl
    · exact (n.white _ hmem).2.1 rfl
    · exact (n.white _ hmem).2.2 rfl
  simp [text, hblank, notMem_written hc]

theorem Entry.notMem_text (hc : c = ' ' ∨ c = '\n') (e : Entry) : c ∉ e.text := by
  have hne : c ≠ '=' := by rcases hc with rfl | rfl <;> decide
  have hkey := e.key_free c (by rcases hc with rfl | rfl <;> simp)
  have hvalue := e.value_free c (by rcases hc with rfl | rfl <;> simp)
  simp [text, hne, hkey, hvalue, notMem_written hc]

theorem Line.notMem_text (hc : c = ' ' ∨ c = '\n') (l : Line) : c ∉ l.text := by
  cases l with
  | noise n => exact n.notMem_text hc
  | entry e => exact e.notMem_text hc

theorem Section.notMem_header (hc : c = ' ' ∨ c = '\n') (s : Section) : c ∉ s.header := by
  have hne : c ≠ '[' ∧ c ≠ ']' := by rcases hc with rfl | rfl <;> decide
  have hname := s.name_free c (by rcases hc with rfl | rfl <;> simp)
  simp [header, hne, hname, notMem_written hc]

theorem Document.notMem_lines (hc : c = ' ' ∨ c = '\n') (d : Document) :
    ∀ line ∈ d.lines, c ∉ line := by
  intro line hline
  simp only [lines, List.mem_append, List.mem_map, List.mem_flatMap, Section.lines,
    List.mem_cons] at hline
  rcases hline with ⟨n, -, rfl⟩ | ⟨s, -, rfl | ⟨l, -, rfl⟩⟩
  · exact n.notMem_text hc
  · exact s.notMem_header hc
  · exact l.notMem_text hc

theorem Document.lines_ne (d : Document) : d.lines ≠ [] := by
  obtain ⟨s, ss, hs⟩ := List.exists_cons_of_ne_nil d.sections_ne
  simp [lines, hs, Section.lines]

theorem Document.space_notMem_text (d : Document) : ' ' ∉ d.text := by
  have hlines : ' ' ∉ ['\n'].intercalate d.lines := by
    rw [mem_intercalate_iff (by decide)]
    rintro ⟨line, hline, hmem⟩
    exact d.notMem_lines (.inl rfl) line hline hmem
  cases hc : d.closed <;> simp [text, hlines, hc]

theorem Document.splitOn_text (d : Document) :
    d.text.splitOn '\n' = d.lines ++ if d.closed then [[]] else [] := by
  have hlines := List.splitOn_intercalate '\n' (d.notMem_lines (.inr rfl)) d.lines_ne
  cases hc : d.closed with
  | false => simpa [text, hc] using hlines
  | true => simp [text, hc, List.splitOn_append_cons_self, hlines]

end Separators

section Lines

theorem uncomment_written {s : Str} (h : '#' ∉ s) (r : Option Remark) :
    uncomment (s ++ written r) = s := by
  cases r with
  | none => simp [uncomment, written, find_eq_none_iff.mpr h]
  | some r => simp [uncomment, written, find_append_self h]

theorem parseText_nil (s : Parser) : parseText s [] = s := by simp [parseText]

theorem parseLine_nil (s : Parser) : parseLine s [] = s := parseText_nil s

theorem parseLine_noise (s : Parser) (n : Noise) : parseLine s n.text = s := by
  have hfree : ∀ c, isSpace c = false → c ∉ n.blank := by
    intro c hc hmem
    rw [(n.white c hmem).1] at hc
    cases hc
  rw [parseLine, Noise.text, uncomment_written (hfree '#' (by decide)), parseText]
  simp only [find_eq_none_iff.mpr (hfree '=' (by decide)),
    find_eq_none_iff.mpr (hfree '[' (by decide)), true_or, and_self, ite_self]

theorem parseText_entry (s : Parser) {key value : Str} (heq : '=' ∉ key)
    (hhash : '#' ∉ key ++ '=' :: value) (hleft : '[' ∉ key ++ '=' :: value) :
    parseText s (key ++ '=' :: value) = { s with tempMap := s.tempMap.insert key value } := by
  have hdrop : (key ++ '=' :: value).drop (key.length + 1) = value := by
    rw [List.drop_append, List.drop_eq_nil_of_le (by omega)]
    simp
  rw [parseText, find_eq_none_iff.mpr hhash, find_eq_none_iff.mpr hleft, find_append_self heq]
  simp [hdrop]

theorem parseLine_entry (s : Parser) (e : Entry) :
    parseLine s e.text = { s with tempMap := s.tempMap.insert e.key e.value } := by
  have hkey := e.key_free
  have hvalue := e.value_free
  simp only [FreeOf, List.mem_cons, List.not_mem_nil, or_false, forall_eq_or_imp, forall_eq]
    at hkey hvalue
  have hhash : '#' ∉ e.key ++ '=' :: e.value := by simp [hkey, hvalue]
  have hleft : '[' ∉ e.key ++ '=' :: e.value := by simp [hkey, hvalue]
  rw [parseLine, Entry.text, uncomment_written hhash, parseText_entry s hkey.2.2.1 hhash hleft]

theorem parseLine_header (s : Parser) (sec : Section) :
    parseLine s sec.header =
      ⟨if s.curKey ≠ [] then s.store else s.config, sec.name, Map.empty⟩ := by
  have hname := sec.name_free
  simp only [FreeOf, List.mem_cons, List.not_mem_nil, or_false, forall_eq_or_imp, forall_eq] at hname
  have hsplit : sec.header = ('[' :: sec.name ++ [']']) ++ written sec.remark := by
    simp [Section.header]
  have hhash : '#' ∉ '[' :: sec.name ++ [']'] := by simp [hname]
  have hleft : find '[' ('[' :: sec.name ++ [']']) = some 0 := by simp [find]
  have hright : find ']' ('[' :: sec.name ++ [']']) = some (sec.name.length + 1) :=
    find_append_self (s := '[' :: sec.name) (by simp [hname]) []
  rw [parseLine, hsplit, uncomment_written hhash, parseText, find_eq_none_iff.mpr hhash, hleft, hright]
  simp [between]

end Lines

section Maps

def insertAll (m : Map α) (pairs : List (Str × α)) : Map α :=
  pairs.foldl (fun m p ↦ m.insert p.1 p.2) m

theorem insertAll_apply (m : Map α) (pairs : List (Str × α)) (k : Str) :
    insertAll m pairs k = (m k).or (pairs.lookup k) := by
  induction pairs generalizing m with
  | nil => simp [insertAll]
  | cons p pairs ih =>
    obtain ⟨key, value⟩ := p
    have hstep := ih (m.insert key value)
    simp only [insertAll] at hstep
    rw [insertAll, List.foldl_cons, hstep, Map.insert, Option.or_assoc, List.lookup_cons]
    by_cases hk : k = key
    · simp [hk]
    · simp [hk, beq_false_of_ne hk]

theorem lookup_eq_some_iff {pairs : List (Str × α)} (h : (pairs.map Prod.fst).Nodup) {k : Str}
    {v : α} : pairs.lookup k = some v ↔ (k, v) ∈ pairs := by
  induction pairs with
  | nil => simp
  | cons p pairs ih =>
    obtain ⟨key, value⟩ := p
    simp only [List.map_cons, List.nodup_cons] at h
    rw [List.lookup_cons, List.mem_cons, Prod.mk.injEq]
    by_cases hk : k = key
    · subst hk
      have hnot : (k, v) ∉ pairs := fun hmem ↦ h.1 (List.mem_map_of_mem hmem)
      simpa [hnot] using eq_comm
    · simp [hk, beq_false_of_ne hk, ih h.2]

theorem insertAll_empty_iff {pairs : List (Str × α)} (h : (pairs.map Prod.fst).Nodup) {k : Str}
    {v : α} : insertAll Map.empty pairs k = some v ↔ (k, v) ∈ pairs := by
  rw [insertAll_apply, ← lookup_eq_some_iff h]
  simp [Map.empty]

end Maps

def Section.toMap (s : Section) : Map Str :=
  insertAll Map.empty (s.entries.map (fun e ↦ (e.key, e.value)))

def Document.toMap (d : Document) : Sections :=
  insertAll Map.empty (d.sections.map (fun s ↦ (s.name, s.toMap)))

section Folds

theorem foldl_noise (s : Parser) (ns : List Noise) :
    (ns.map Noise.text).foldl parseLine s = s := by
  induction ns with
  | nil => rfl
  | cons n ns ih => rw [List.map_cons, List.foldl_cons, parseLine_noise, ih]

theorem foldl_body (s : Parser) (body : List Line) :
    (body.map Line.text).foldl parseLine s =
      { s with
        tempMap := insertAll s.tempMap
          ((body.filterMap Line.entry?).map (fun e ↦ (e.key, e.value))) } := by
  induction body generalizing s with
  | nil => rfl
  | cons l body ih =>
    cases l with
    | noise n =>
      simp only [List.map_cons, List.foldl_cons, Line.text, parseLine_noise, ih]
      rfl
    | entry e =>
      simp only [List.map_cons, List.foldl_cons, Line.text, parseLine_entry, ih]
      rfl

theorem foldl_section (s : Parser) (sec : Section) :
    sec.lines.foldl parseLine s =
      ⟨if s.curKey ≠ [] then s.store else s.config, sec.name, sec.toMap⟩ := by
  rw [Section.lines, List.foldl_cons, parseLine_header, foldl_body]
  rfl

theorem foldl_sections {s : Parser} (hs : s.curKey ≠ []) (secs : List Section) :
    ((secs.flatMap Section.lines).foldl parseLine s).store =
      insertAll s.store (secs.map (fun sec ↦ (sec.name, sec.toMap))) := by
  induction secs generalizing s with
  | nil => rfl
  | cons sec secs ih =>
    rw [List.flatMap_cons, List.foldl_append, foldl_section, if_pos hs, ih sec.name_ne]
    rfl

theorem Document.foldl_lines (d : Document) :
    (d.lines.foldl parseLine ⟨Map.empty, [], Map.empty⟩).store = d.toMap := by
  obtain ⟨sec, secs, hsecs⟩ := List.exists_cons_of_ne_nil d.sections_ne
  rw [lines, List.foldl_append, foldl_noise, hsecs, List.flatMap_cons, List.foldl_append,
    foldl_section, foldl_sections sec.name_ne, toMap, hsecs]
  rfl

end Folds

theorem loadConfig_text (fuel : ℕ) (d : Document) :
    loadConfig fuel (some d.text) Map.empty = .done (0, d.toMap) := by
  rw [loadConfig_eq, if_neg d.space_notMem_text, foldl_getlines parseLine_nil, d.splitOn_text,
    List.foldl_append, ← d.foldl_lines]
  cases d.closed with
  | false => rfl
  | true => rw [if_pos rfl, List.foldl_cons, parseLine_nil, List.foldl_nil]

theorem Section.toMap_iff (s : Section) (m : Map Str) :
    s.toMap = m ↔
      ∀ key value, m key = some value ↔ ∃ e ∈ s.entries, e.key = key ∧ e.value = value := by
  have hself : ∀ key value,
      s.toMap key = some value ↔ ∃ e ∈ s.entries, e.key = key ∧ e.value = value := by
    intro key value
    have hkeys : ((s.entries.map (fun e ↦ (e.key, e.value))).map Prod.fst).Nodup := by
      rw [List.map_map]
      exact s.keys
    rw [toMap, insertAll_empty_iff hkeys, List.mem_map]
    simp only [Prod.mk.injEq]
  constructor
  · rintro rfl
    exact hself
  · intro h
    funext key
    apply Option.ext
    intro value
    rw [hself, h]

/-- Loading a document gives exactly its sections with exactly their entries. -/
theorem loadConfig_document (d : Document) :
    ∃ config : Sections, (∀ fuel, loadConfig fuel (some d.text) Map.empty = .done (0, config)) ∧
      ∀ name m, config name = some m ↔ ∃ s ∈ d.sections, s.name = name ∧
        ∀ key value, m key = some value ↔ ∃ e ∈ s.entries, e.key = key ∧ e.value = value := by
  refine ⟨d.toMap, fun fuel ↦ loadConfig_text fuel d, fun name m ↦ ?_⟩
  have hnames : ((d.sections.map (fun s ↦ (s.name, s.toMap))).map Prod.fst).Nodup := by
    rw [List.map_map]
    exact d.names
  rw [Document.toMap, insertAll_empty_iff hnames, List.mem_map]
  simp only [Prod.mk.injEq, Section.toMap_iff]

example : ∃ d : Document, d.text = "#log\n\n[a]\nk=v=]#x\n".toList :=
  ⟨⟨[⟨[], some ⟨"log".toList, by decide⟩, by simp⟩, ⟨[], none, by simp⟩],
    [⟨"a".toList, none, [.entry ⟨"k".toList, "v=]".toList, some ⟨"x".toList, by decide⟩, by decide,
      by decide⟩], by simp, by decide, by simp [Line.entry?]⟩],
    true, by simp, by decide⟩, by decide +kernel⟩

end Calcsig.Utils.ConfigRoundTrip
