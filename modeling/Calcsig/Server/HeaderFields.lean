import Calcsig.Foundation.Lines
import Calcsig.Server.Transfer

namespace Calcsig.Server.HeaderFields

open Foundation.Text Foundation.Lines Transfer

def isOws (c : Char) : Bool := c = ' ' || c = '\t'

def crlf : Str := ['\r', '\n']

/-- A Content-Length field: the name in any letter case, and any white space
around the digits. -/
structure LengthField where
  name : Str
  lead : Str
  digits : Str
  trail : Str
  name_eq : name.map Char.toLower = "content-length".toList
  lead_ows : ∀ c ∈ lead, isOws c = true
  digits_ne : digits ≠ []
  digits_digit : ∀ c ∈ digits, c.isDigit = true
  trail_ows : ∀ c ∈ trail, isOws c = true
  value_lt : Nat.ofDigitChars 10 digits 0 < UInt64.size

namespace LengthField

def value (f : LengthField) : ℕ := Nat.ofDigitChars 10 f.digits 0

def rest (f : LengthField) : Str := f.lead ++ (f.digits ++ (f.trail ++ crlf))

def text (f : LengthField) : Str := f.name ++ ':' :: f.rest

end LengthField

def IsLength (text : Str) (n : ℕ) : Prop := ∃ f : LengthField, f.text = text ∧ f.value = n

/-- The value of the last Content-Length field, or what was known before if
there is none. -/
def LastLength (known : ℕ) (lines : List HeaderLine) (n : ℕ) : Prop :=
  (∃ before line after, lines = before ++ line :: after ∧ IsLength line.text n ∧
      ∀ other ∈ after, ¬ ∃ m, IsLength other.text m) ∨
    n = known ∧ ∀ line ∈ lines, ¬ ∃ m, IsLength line.text m

def Announcing (line : HeaderLine) : Prop := lengthName <+: line.memory ∧ ':' ∈ line.memory

/-- The name in the usual spelling, and right behind the colon white space or
at least no digit that matters. -/
def WellSpelled (text : Str) : Prop :=
  ∃ c rest, text = lengthName ++ ':' :: c :: rest ∧ (isOws c = true ∨ c = '0')

def Plain (line : HeaderLine) : Prop :=
  (∃ n, IsLength line.text n) ∧ WellSpelled line.text ∨
    (¬ ∃ n, IsLength line.text n) ∧ ¬ Announcing line

section Fields

variable (f : LengthField)

theorem isSpace_of_isOws {c : Char} (h : isOws c = true) : isSpace c = true := by
  simp only [isOws, Bool.or_eq_true, decide_eq_true_eq] at h
  rcases h with rfl | rfl <;> decide

theorem isDigit_of_isOws {c : Char} (h : isOws c = true) : c.isDigit = false := by
  simp only [isOws, Bool.or_eq_true, decide_eq_true_eq] at h
  rcases h with rfl | rfl <;> decide

theorem notMem_name {c : Char} (h : c.toLower ∉ "content-length".toList) : c ∉ f.name := by
  intro hmem
  rw [← f.name_eq] at h
  exact h (List.mem_map_of_mem hmem)

theorem colon_notMem_name : ':' ∉ f.name := notMem_name f (by decide)

theorem trail_isSpace : ∀ c ∈ f.trail ++ crlf, isSpace c = true := by
  have hcrlf : ∀ c ∈ crlf, isSpace c = true :=
    List.forall_mem_cons.mpr ⟨by decide, List.forall_mem_singleton.mpr (by decide)⟩
  intro c hc
  rcases List.mem_append.mp hc with h | h
  · exact isSpace_of_isOws (f.trail_ows c h)
  · exact hcrlf c h

theorem nul_notMem_text : nul ∉ f.text := by
  have hlead := nul_notMem_of_isSpace fun c hc ↦ isSpace_of_isOws (f.lead_ows c hc)
  have hdigits := nul_notMem_of_isDigit f.digits_digit
  have htrail := nul_notMem_of_isSpace (trail_isSpace f)
  have hname : nul ∉ f.name := notMem_name f (by decide)
  have hcolon : nul ≠ ':' := by decide
  simp only [LengthField.text, LengthField.rest, List.mem_append, List.mem_cons, not_or] at htrail ⊢
  exact ⟨hname, hcolon, hlead, hdigits, htrail⟩

theorem digits_eq : (f.rest.dropWhile isOws).takeWhile Char.isDigit = f.digits := by
  have hows : (f.digits ++ (f.trail ++ crlf)).dropWhile isOws = f.digits ++ (f.trail ++ crlf) := by
    obtain ⟨d, ds, hd⟩ := List.exists_cons_of_ne_nil f.digits_ne
    have hdigit : d.isDigit = true := f.digits_digit d (by simp [hd])
    have hnot : ¬ isOws d = true := fun h ↦ by simp [isDigit_of_isOws h] at hdigit
    rw [hd, List.cons_append, List.dropWhile_cons_of_neg hnot]
  have hstop : (f.trail ++ crlf).takeWhile Char.isDigit = [] := by
    cases ht : f.trail with
    | nil => rfl
    | cons c cs =>
      have hc := isDigit_of_isOws (f.trail_ows c (by simp [ht]))
      rw [List.cons_append, List.takeWhile_cons_of_neg (by simp [hc])]
  rw [LengthField.rest, List.dropWhile_append_of_pos f.lead_ows, hows,
    List.takeWhile_append_of_pos f.digits_digit, hstop, List.append_nil]

theorem value_unique {f g : LengthField} (h : f.text = g.text) : f.value = g.value := by
  have hrest := ((append_separator_inj (colon_notMem_name f) (colon_notMem_name g)).mp h).2
  rw [LengthField.value, LengthField.value, ← digits_eq f, ← digits_eq g, hrest]

theorem isLength_text_iff {n : ℕ} : IsLength f.text n ↔ n = f.value := by
  constructor
  · rintro ⟨g, htext, rfl⟩
    exact value_unique htext
  · rintro rfl
    exact ⟨f, rfl, rfl⟩

theorem wellSpelled_text_iff :
    WellSpelled f.text ↔
      f.name = lengthName ∧ ∃ c rest, f.rest = c :: rest ∧ (isOws c = true ∨ c = '0') := by
  have hcolon : ':' ∉ lengthName := by decide
  constructor
  · rintro ⟨c, rest, htext, hc⟩
    obtain ⟨hname, hrest⟩ := (append_separator_inj (colon_notMem_name f) hcolon).mp htext
    exact ⟨hname, c, rest, hrest, hc⟩
  · rintro ⟨hname, c, rest, hrest, hc⟩
    exact ⟨c, rest, by rw [LengthField.text, hname, hrest], hc⟩

theorem strtoul_rest_iff :
    strtoul (f.rest.drop 1) = f.value ↔ ∃ c rest, f.rest = c :: rest ∧ (isOws c = true ∨ c = '0') := by
  cases hlead : f.lead with
  | cons c lead =>
    have hblanks : ∀ x ∈ lead, isSpace x = true := fun x hx ↦
      isSpace_of_isOws (f.lead_ows x (by simp [hlead, hx]))
    have hrest : f.rest = c :: (lead ++ (f.digits ++ (f.trail ++ crlf))) := by
      rw [LengthField.rest, hlead, List.cons_append]
    have hread := strtoul_padded hblanks f.digits_digit (trail_isSpace f) f.value_lt
    rw [hrest, List.drop_one, List.tail_cons, hread]
    exact iff_of_true rfl ⟨c, _, rfl, .inl (f.lead_ows c (by simp [hlead]))⟩
  | nil =>
    obtain ⟨d, ds, hds⟩ := List.exists_cons_of_ne_nil f.digits_ne
    have hdigit : d.isDigit = true := f.digits_digit d (by simp [hds])
    have hrest : f.rest = d :: ([] ++ (ds ++ (f.trail ++ crlf))) := by
      rw [LengthField.rest, hlead, hds, List.nil_append, List.nil_append, List.cons_append]
    have hlt : Nat.ofDigitChars 10 ds 0 < UInt64.size := by
      obtain ⟨weight, -, hvalue⟩ := ofDigitChars_cons_zero d ds
      have hwhole := f.value_lt
      rw [hds, hvalue] at hwhole
      omega
    have hread := strtoul_padded (List.forall_mem_nil _)
      (fun x hx ↦ f.digits_digit x (by simp [hds, hx])) (trail_isSpace f) hlt
    rw [hrest, List.drop_one, List.tail_cons, hread, LengthField.value, hds,
      ofDigitChars_tail_iff hdigit]
    constructor
    · intro hd
      exact ⟨d, _, rfl, .inr hd⟩
    · rintro ⟨c, rest, hcons, hc⟩
      obtain ⟨rfl, -⟩ := List.cons.inj hcons
      refine hc.resolve_left fun hows ↦ ?_
      simp [isDigit_of_isOws hows] at hdigit

theorem name_length : f.name.length = lengthName.length := by
  rw [← List.length_map Char.toLower, f.name_eq]
  decide

end Fields

section Lines

variable {f : LengthField} {line : HeaderLine}

theorem strstr_colon (s : Str) : strstr colon s = find ':' s := strstr_singleton ':' s

theorem memory_field (htext : line.text = f.text) :
    line.memory = f.name ++ ':' :: (f.rest ++ cString line.after) := by
  rw [HeaderLine.memory, htext, cString_append (nul_notMem_text f), LengthField.text,
    List.append_assoc, List.cons_append]

theorem announcing_field_iff (htext : line.text = f.text) :
    Announcing line ↔ f.name = lengthName := by
  rw [Announcing, memory_field htext]
  constructor
  · rintro ⟨hstart, -⟩
    have hname := List.prefix_of_prefix_length_le hstart (List.prefix_append _ _) (name_length f).ge
    exact (hname.eq_of_length (name_length f).symm).symm
  · intro hname
    rw [← hname]
    exact ⟨List.prefix_append _ _, by simp⟩

theorem scanLength_of_not_announcing (h : ¬ Announcing line) (known : ℕ) :
    scanLength line known = some known := by
  unfold scanLength
  split
  · rfl
  · rename_i pos hpos
    rw [if_neg]
    intro hname
    refine h ⟨(strstr_eq_zero_iff (by decide)).mp hname, ?_⟩
    by_contra hcolon
    rw [strstr_colon, find_eq_none_iff.mpr hcolon] at hpos
    cases hpos

theorem scanLength_of_announcing (h : Announcing line) (known known' : ℕ) :
    scanLength line known = scanLength line known' := by
  obtain ⟨hname, hcolon⟩ := h
  unfold scanLength
  split
  · rename_i hpos
    rw [strstr_colon, find_eq_none_iff] at hpos
    exact absurd hcolon hpos
  · have hstart := (strstr_eq_zero_iff (by decide)).mpr hname
    rw [if_pos hstart, if_pos hstart]

theorem scanLength_field (htext : line.text = f.text) (hname : f.name = lengthName) (known : ℕ) :
    scanLength line known = some (strtoul (f.rest.drop 1)) := by
  have hmemory := memory_field htext
  have hcolon : strstr colon line.memory = some f.name.length := by
    rw [strstr_colon, hmemory, find_append_self (colon_notMem_name f)]
  have hstart : strstr lengthName line.memory = some 0 := by
    rw [strstr_eq_zero_iff (by decide), hmemory, hname]
    exact List.prefix_append _ _
  have hroom : f.name.length + 2 ≤ line.text.length := by
    rw [htext, LengthField.text, LengthField.rest, crlf]
    simp only [List.length_append, List.length_cons]
    omega
  have hdrop : line.text.drop (f.name.length + 2) = f.rest.drop 1 := by
    rw [htext, LengthField.text, List.drop_append]
    simp
  rw [scanLength, hcolon]
  simp only [hstart, hroom, hdrop, if_true]

theorem lastLength_singleton_iff {known n : ℕ} :
    LastLength known [line] n ↔
      IsLength line.text n ∨ n = known ∧ ¬ ∃ m, IsLength line.text m := by
  constructor
  · rintro (⟨before, other, after, hsplit, hlength, -⟩ | ⟨rfl, hnone⟩)
    · have hmem : other ∈ [line] := by simp [hsplit]
      rw [List.mem_singleton.mp hmem] at hlength
      exact .inl hlength
    · exact .inr ⟨rfl, hnone line (by simp)⟩
  · rintro (hlength | ⟨rfl, hnone⟩)
    · exact .inl ⟨[], line, [], rfl, hlength, by simp⟩
    · refine .inr ⟨rfl, fun other hother ↦ ?_⟩
      rwa [List.mem_singleton.mp hother]

theorem lastLength_cons {known m n : ℕ} {lines : List HeaderLine} (hline : LastLength known [line] m)
    (hlines : LastLength m lines n) : LastLength known (line :: lines) n := by
  rcases hlines with ⟨before, other, after, rfl, hlength, hafter⟩ | ⟨rfl, hnone⟩
  · exact .inl ⟨line :: before, other, after, rfl, hlength, hafter⟩
  · rcases lastLength_singleton_iff.mp hline with hlength | ⟨rfl, hother⟩
    · exact .inl ⟨[], line, lines, rfl, hlength, hnone⟩
    · exact .inr ⟨rfl, List.forall_mem_cons.mpr ⟨hother, hnone⟩⟩

theorem scanLength_of_plain (h : Plain line) (known : ℕ) :
    ∃ n, scanLength line known = some n ∧ LastLength known [line] n := by
  rcases h with ⟨⟨-, f, htext, -⟩, hspelled⟩ | ⟨hnone, hquiet⟩
  · rw [← htext, wellSpelled_text_iff] at hspelled
    refine ⟨f.value, ?_, lastLength_singleton_iff.mpr (.inl ⟨f, htext, rfl⟩)⟩
    rw [scanLength_field htext.symm hspelled.1, (strtoul_rest_iff f).mpr hspelled.2]
  · exact ⟨known, scanLength_of_not_announcing hquiet known,
      lastLength_singleton_iff.mpr (.inr ⟨rfl, hnone⟩)⟩

theorem not_announcing_of_scanLength
    (h : ∀ known < UInt64.size, scanLength line known = some known) : ¬ Announcing line := by
  intro hannounce
  have hsame := scanLength_of_announcing hannounce 0 1
  rw [h 0 (by decide), h 1 (by decide)] at hsame
  cases hsame

theorem wellSpelled_of_scanLength (htext : line.text = f.text)
    (h : ∀ known < UInt64.size, scanLength line known = some f.value) : WellSpelled line.text := by
  have hname : f.name = lengthName := by
    rw [← announcing_field_iff htext]
    by_contra hquiet
    have hsame := (h 0 (by decide)).trans (h 1 (by decide)).symm
    rw [scanLength_of_not_announcing hquiet, scanLength_of_not_announcing hquiet] at hsame
    cases hsame
  have hread := (scanLength_field htext hname 0).symm.trans (h 0 (by decide))
  rw [htext, wellSpelled_text_iff]
  exact ⟨hname, (strtoul_rest_iff f).mp (Option.some.inj hread)⟩

theorem plain_of_scanLength
    (h : ∀ known < UInt64.size, ∃ n, scanLength line known = some n ∧ LastLength known [line] n) :
    Plain line := by
  by_cases hlength : ∃ n, IsLength line.text n
  · obtain ⟨-, f, htext, -⟩ := id hlength
    refine .inl ⟨hlength, wellSpelled_of_scanLength htext.symm fun known hlt ↦ ?_⟩
    obtain ⟨n, hscan, hlast⟩ := h known hlt
    rw [lastLength_singleton_iff, ← htext, isLength_text_iff] at hlast
    rcases hlast with rfl | ⟨-, hnone⟩
    · exact hscan
    · exact absurd ⟨f.value, f, rfl, rfl⟩ hnone
  · refine .inr ⟨hlength, not_announcing_of_scanLength fun known hlt ↦ ?_⟩
    obtain ⟨n, hscan, hlast⟩ := h known hlt
    rcases lastLength_singleton_iff.mp hlast with hn | ⟨rfl, -⟩
    · exact absurd ⟨n, hn⟩ hlength
    · exact hscan

end Lines

/-- Whatever length is known, reading the line leaves the one HTTP means. -/
def Recognises {Info : Type} (read : HeaderLine → Info → Option Info) (length : Info → ℕ)
    (line : HeaderLine) : Prop :=
  ∀ info, length info < UInt64.size →
    ∃ info', read line info = some info' ∧ LastLength (length info) [line] (length info')

def headerOf : Arrival → Option HeaderLine
  | .header line => some line
  | .body _ _ => none

def answerHeaderOf : Answer → Option HeaderLine
  | .header line => some line
  | .body _ => none

section Readers

variable {Info : Type} {read : HeaderLine → Info → Option Info} {length : Info → ℕ}
  {set : Info → ℕ → Info}

theorem recognises_iff
    (hread : ∀ line info, read line info = (scanLength line (length info)).map (set info))
    (hset : ∀ info n, length (set info n) = n) (start : Info) (line : HeaderLine) :
    Recognises read length line ↔ Plain line := by
  constructor
  · intro h
    apply plain_of_scanLength
    intro known hlt
    have hstart : length (set start known) = known := hset start known
    obtain ⟨info, hinfo, hlast⟩ := h (set start known) (hstart.trans_lt hlt)
    rw [hread, hstart] at hinfo
    obtain ⟨n, hscan, rfl⟩ := Option.map_eq_some_iff.mp hinfo
    rw [hset, hset] at hlast
    exact ⟨n, hscan, hlast⟩
  · intro h info _
    obtain ⟨n, hscan, hlast⟩ := scanLength_of_plain h (length info)
    refine ⟨set info n, by rw [hread, hscan, Option.map_some], ?_⟩
    rwa [hset]

end Readers

theorem headReader_recognises_iff (line : HeaderLine) :
    Recognises headReader DownloadInfo.contentLength line ↔ Plain line :=
  recognises_iff (fun _ _ ↦ rfl) (fun _ _ ↦ rfl) ⟨none, 0, 0⟩ line

theorem callbackHeadReader_recognises_iff (line : HeaderLine) :
    Recognises callbackHeadReader CallbackInfo.contentLength line ↔ Plain line :=
  recognises_iff (fun _ _ ↦ rfl) (fun _ _ ↦ rfl) ⟨0, 0, []⟩ line

theorem perform_lastLength {arrivals : List Arrival}
    (h : ∀ line ∈ arrivals.filterMap headerOf, Plain line) (s : Download) :
    ∃ s', perform s arrivals = (true, s') ∧
      LastLength s.info.contentLength (arrivals.filterMap headerOf) s'.info.contentLength := by
  induction arrivals generalizing s with
  | nil => exact ⟨s, rfl, .inr ⟨rfl, by simp⟩⟩
  | cons arrival arrivals ih =>
    cases arrival with
    | header line =>
      obtain ⟨hline, hlines⟩ := List.forall_mem_cons.mp h
      obtain ⟨n, hscan, hlast⟩ := scanLength_of_plain hline s.info.contentLength
      obtain ⟨s', hrun, hrest⟩ := ih hlines { s with info := { s.info with contentLength := n } }
      exact ⟨s', by rw [perform, headReader, hscan]; exact hrun, lastLength_cons hlast hrest⟩
    | body chunk write => exact ih h (dataReader chunk write s)

theorem performCallback_lastLength {answers : List Answer}
    (h : ∀ line ∈ answers.filterMap answerHeaderOf, Plain line) (info : CallbackInfo) :
    ∃ info', performCallback info answers = some info' ∧
      LastLength info.contentLength (answers.filterMap answerHeaderOf) info'.contentLength := by
  induction answers generalizing info with
  | nil => exact ⟨info, rfl, .inr ⟨rfl, by simp⟩⟩
  | cons answer answers ih =>
    cases answer with
    | header line =>
      obtain ⟨hline, hlines⟩ := List.forall_mem_cons.mp h
      obtain ⟨n, hscan, hlast⟩ := scanLength_of_plain hline info.contentLength
      obtain ⟨info', hrun, hrest⟩ := ih hlines { info with contentLength := n }
      exact ⟨info', by rw [performCallback, callbackHeadReader, hscan]; exact hrun,
        lastLength_cons hlast hrest⟩
    | body chunk => exact ih h (callbackDataReader chunk info)

/-- The readers recognise the plain lines and no others, and follow every
transfer made of plain lines. -/
theorem contentLength_recognised (line : HeaderLine) (arrivals : List Arrival)
    (answers : List Answer) :
    (Recognises headReader DownloadInfo.contentLength line ↔ Plain line) ∧
      (Recognises callbackHeadReader CallbackInfo.contentLength line ↔ Plain line) ∧
      ((∀ line ∈ arrivals.filterMap headerOf, Plain line) → ∀ s : Download,
        ∃ s', perform s arrivals = (true, s') ∧ LastLength s.info.contentLength
          (arrivals.filterMap headerOf) s'.info.contentLength) ∧
      ((∀ line ∈ answers.filterMap answerHeaderOf, Plain line) → ∀ info : CallbackInfo,
        ∃ info', performCallback info answers = some info' ∧ LastLength info.contentLength
          (answers.filterMap answerHeaderOf) info'.contentLength) := by
  refine ⟨headReader_recognises_iff line, callbackHeadReader_recognises_iff line, ?_, ?_⟩
  · intro h s
    exact perform_lastLength h s
  · intro h info
    exact performCallback_lastLength h info

theorem isLength_start {text : Str} {n : ℕ} (h : IsLength text n) :
    "content-length".toList <+: text.map Char.toLower := by
  obtain ⟨f, rfl, -⟩ := h
  rw [LengthField.text, List.map_append, f.name_eq]
  exact List.prefix_append _ _

def spelled (name : Str) (h : name.map Char.toLower = "content-length".toList) : LengthField where
  name := name
  lead := [' ']
  digits := ['4', '2']
  trail := []
  name_eq := h
  lead_ows := List.forall_mem_singleton.mpr (by decide)
  digits_ne := by decide
  digits_digit := List.forall_mem_cons.mpr ⟨by decide, List.forall_mem_singleton.mpr (by decide)⟩
  trail_ows := List.forall_mem_nil _
  value_lt := by decide

def serverLine : HeaderLine := ⟨"Server: a\r\n".toList, []⟩

def lengthLine : HeaderLine := ⟨"Content-Length: 42\r\n".toList, []⟩

def lowerLine : HeaderLine := ⟨"content-length: 42\r\n".toList, []⟩

theorem isLength_lengthLine : IsLength lengthLine.text 42 :=
  ⟨spelled lengthName (by decide), by decide, by decide⟩

theorem isLength_lowerLine : IsLength lowerLine.text 42 :=
  ⟨spelled "content-length".toList (by decide), by decide, by decide⟩

theorem contentLength_recognised_instance :
    (Plain serverLine ∧ Plain lengthLine) ∧
      ∃ info, performCallback ⟨7, 0, []⟩ [.header lengthLine, .header serverLine, .body ['x']] =
        some info ∧ LastLength 7 [lengthLine, serverLine] info.contentLength := by
  have hserver : Plain serverLine := by
    refine .inr ⟨?_, ?_⟩
    · rintro ⟨n, h⟩
      exact absurd (isLength_start h) (by decide)
    · rintro ⟨h, -⟩
      exact absurd h (by decide)
  have hlength : Plain lengthLine :=
    .inl ⟨⟨42, isLength_lengthLine⟩, ' ', "42\r\n".toList, by decide, .inl (by decide)⟩
  obtain ⟨-, -, -, hrun⟩ := contentLength_recognised serverLine []
    [.header lengthLine, .header serverLine, .body ['x']]
  refine ⟨⟨hserver, hlength⟩, hrun ?_ ⟨7, 0, []⟩⟩
  exact List.forall_mem_cons.mpr ⟨hlength, List.forall_mem_singleton.mpr hserver⟩

/-- A length field whose name is in small letters is passed over. -/
theorem lower_case_ignored :
    IsLength lowerLine.text 42 ∧
      headReader lowerLine ⟨none, 0, 0⟩ = some ⟨none, 0, 0⟩ ∧ ¬ LastLength 0 [lowerLine] 0 := by
  have hscan : scanLength lowerLine 0 = some 0 := by decide
  refine ⟨isLength_lowerLine, by rw [headReader, hscan, Option.map_some], ?_⟩
  rw [lastLength_singleton_iff]
  rintro (⟨f, htext, hvalue⟩ | ⟨-, hnone⟩)
  · have h := (isLength_text_iff f).mp (htext ▸ isLength_lowerLine)
    omega
  · exact hnone ⟨42, isLength_lowerLine⟩

end Calcsig.Server.HeaderFields
