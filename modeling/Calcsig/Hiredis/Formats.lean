import Calcsig.Hiredis.Commands

namespace Calcsig.Hiredis.Formats

open Foundation.Text Foundation.RedisServer Replies Commands

/-- The arguments that stand behind a format. -/
inductive Arg
  | text (str : Str)
  | sized (bytes : Str)
  | number (n : ℤ)
  | real (value : Str)

def Arg.isNumber : Arg → Bool
  | .number _ => true
  | _ => false

def Arg.isReal : Arg → Bool
  | .real _ => true
  | _ => false

section Directives

def intfmts : Str := "diouxX".toList

def realfmts : Str := "eEfFgGaA".toList

def flags : Str := "#0-+ ".toList

/-- A conversion that the C library is to print: how many characters it has from the
percent sign on, and whether it takes a real. It has `ended` where the character
that was taken for its last one is the end of the format. -/
inductive Directive
  | conversion (length : ℕ) (real ended : Bool)
  | invalid

def skipPrecision : Str → Str
  | '.' :: p => p.dropWhile Char.isDigit
  | p => p

/-- The rest of a conversion behind its flags, width and precision. The search for
the conversion's letter takes the end of the format for one. -/
def conversionOf (before : ℕ) : Str → Directive
  | [] => .conversion (before + 1) false true
  | 'h' :: 'h' :: c :: _ => if c ∈ intfmts then .conversion (before + 3) false false else .invalid
  | 'h' :: c :: _ => if c ∈ intfmts then .conversion (before + 2) false false else .invalid
  | 'l' :: 'l' :: c :: _ => if c ∈ intfmts then .conversion (before + 3) false false else .invalid
  | 'l' :: c :: _ => if c ∈ intfmts then .conversion (before + 2) false false else .invalid
  | c :: _ =>
    if c ∈ intfmts then .conversion (before + 1) false false
    else if c ∈ realfmts then .conversion (before + 1) true false
    else .invalid

def directive (s : Str) : Directive :=
  let p := skipPrecision ((s.dropWhile (· ∈ flags)).dropWhile Char.isDigit)
  conversionOf (1 + (s.length - p.length)) p

end Directives

section Scanning

structure Scan where
  argv : List Str
  curarg : Str
  touched : Bool

def Scan.add (scan : Scan) (s : Str) : Scan := ⟨scan.argv, scan.curarg ++ s, true⟩

def Scan.close (scan : Scan) : Scan :=
  if scan.touched then ⟨scan.argv ++ [scan.curarg], [], false⟩ else scan

/-- What a format comes to. It is undefined where an argument is missing or of
another type, and where the end of the format is run over. -/
inductive Formatted (α : Type)
  | ok (a : α)
  | invalid
  | undefined

variable (print : Str → Arg → Str)

/-- The pass over the format. The library prints a conversion of up to thirteen
characters; of a longer one only two are skipped. -/
def scanFormat : ℕ → Str → List Arg → Scan → Formatted (List Str)
  | 0, _, _, _ => .undefined
  | _ + 1, [], _, scan => .ok scan.close.argv
  | n + 1, c :: rest, args, scan =>
    if c ≠ '%' ∨ rest = [] then
      scanFormat n rest args (if c = ' ' then scan.close else scan.add [c])
    else
      match rest, args with
      | 's' :: rest', .text str :: args' => scanFormat n rest' args' (scan.add (cString str))
      | 's' :: _, _ => .undefined
      | 'b' :: rest', .sized bytes :: args' => scanFormat n rest' args' (scan.add bytes)
      | 'b' :: _, _ => .undefined
      | '%' :: rest', _ => scanFormat n rest' args (scan.add ['%'])
      | _, _ =>
        match directive rest, args with
        | .invalid, _ => .invalid
        | .conversion _ _ _, [] => .undefined
        | .conversion length real ended, arg :: args' =>
          if (if real then arg.isReal else arg.isNumber) = false then .undefined
          else if 14 ≤ length then scanFormat n (rest.drop 1) args' (scan.add [])
          else if ended then .undefined
          else scanFormat n (rest.drop (length - 1)) args'
            (scan.add (print ('%' :: rest.take (length - 1)) arg))

def redisvFormatCommand (format : Str) (args : List Arg) : Formatted Str :=
  match scanFormat print ((cString format).length + 1) (cString format) args ⟨[], [], false⟩ with
  | .ok argv => (formatArgv decimal argv).elim .undefined .ok
  | .invalid => .invalid
  | .undefined => .undefined

end Scanning

section Templates

/-- A part of a word in a format. -/
inductive Piece
  | literal (c : Char)
  | percent
  | text (str : Str)
  | sized (bytes : Str)

namespace Piece

def Plain : Piece → Prop
  | literal c => c ≠ ' ' ∧ c ≠ '%' ∧ c ≠ nul
  | _ => True

def format : Piece → Str
  | literal c => [c]
  | percent => ['%', '%']
  | text _ => ['%', 's']
  | sized _ => ['%', 'b']

def args : Piece → List Arg
  | literal _ | percent => []
  | text str => [.text str]
  | sized bytes => [.sized bytes]

def value : Piece → Str
  | literal c => [c]
  | percent => ['%']
  | text str => cString str
  | sized bytes => bytes

end Piece

def wordFormat (word : List Piece) : Str := word.flatMap Piece.format

/-- Words with a blank between them. -/
def templateFormat : List (List Piece) → Str
  | [] => []
  | [word] => wordFormat word
  | word :: words => wordFormat word ++ ' ' :: templateFormat words

def templateArgs (words : List (List Piece)) : List Arg := words.flatMap (·.flatMap Piece.args)

def wordValue (word : List Piece) : Str := word.flatMap Piece.value

variable {print : Str → Arg → Str} {n : ℕ} {rest : Str} {args : List Arg} {scan : Scan}

theorem scan_piece {piece : Piece} (h : piece.Plain) :
    scanFormat print (n + 1) (piece.format ++ rest) (piece.args ++ args) scan =
      scanFormat print n rest args (scan.add piece.value) := by
  cases piece with
  | literal c =>
    simp only [Piece.format, Piece.args, Piece.value, List.cons_append, List.nil_append, scanFormat]
    rw [if_pos (.inl h.2.1), if_neg h.1]
  | percent => simp [Piece.format, Piece.args, Piece.value, scanFormat]
  | text str => simp [Piece.format, Piece.args, Piece.value, scanFormat]
  | sized bytes => simp [Piece.format, Piece.args, Piece.value, scanFormat]

theorem scan_word (print : Str → Arg → Str) (args : List Arg) (argv : List Str) (curarg : Str)
    {word : List Piece} (h : ∀ piece ∈ word, piece.Plain) (hn : (wordFormat word ++ rest).length < n) :
    ∃ m, rest.length < m ∧
      scanFormat print n (wordFormat word ++ rest) (word.flatMap Piece.args ++ args) ⟨argv, curarg, true⟩ =
        scanFormat print m rest args ⟨argv, curarg ++ wordValue word, true⟩ := by
  induction word generalizing n curarg with
  | nil => exact ⟨n, hn, by simp [wordFormat, wordValue]⟩
  | cons piece word ih =>
    rw [wordFormat, List.flatMap_cons, List.append_assoc] at hn
    have hformat : 0 < piece.format.length := by cases piece <;> simp [Piece.format]
    cases n with
    | zero => omega
    | succ n =>
      rw [List.length_append] at hn
      obtain ⟨m, hm, hscan⟩ := ih (curarg ++ piece.value) (fun p hp ↦ h p (by simp [hp]))
        (show (wordFormat word ++ rest).length < n by rw [wordFormat]; omega)
      refine ⟨m, hm, ?_⟩
      rw [wordFormat, List.flatMap_cons, List.flatMap_cons, List.append_assoc, List.append_assoc,
        scan_piece (h piece (by simp)), wordValue, List.flatMap_cons, ← List.append_assoc]
      exact hscan

theorem scan_first (print : Str → Arg → Str) (args : List Arg) (argv : List Str) {word : List Piece}
    (hne : word ≠ []) (h : ∀ piece ∈ word, piece.Plain) (hn : (wordFormat word ++ rest).length < n) :
    ∃ m, rest.length < m ∧
      scanFormat print n (wordFormat word ++ rest) (word.flatMap Piece.args ++ args) ⟨argv, [], false⟩ =
        scanFormat print m rest args ⟨argv, wordValue word, true⟩ := by
  cases word with
  | nil => exact absurd rfl hne
  | cons piece word =>
    obtain ⟨m, hm, hscan⟩ := scan_word print args argv [] h hn
    refine ⟨m, hm, hscan ▸ ?_⟩
    cases n with
    | zero => omega
    | succ n =>
      rw [wordFormat, List.flatMap_cons, List.flatMap_cons, List.append_assoc, List.append_assoc,
        scan_piece (h piece (by simp)), scan_piece (h piece (by simp))]
      rfl

theorem scan_template {words : List (List Piece)}
    (hwords : ∀ word ∈ words, word ≠ [] ∧ ∀ piece ∈ word, piece.Plain) {argv : List Str}
    (hn : (templateFormat words).length < n) :
    scanFormat print n (templateFormat words) (templateArgs words) ⟨argv, [], false⟩ =
      .ok (argv ++ words.map wordValue) := by
  induction words generalizing n argv with
  | nil =>
    cases n with
    | zero => cases hn
    | succ n => simp [templateFormat, scanFormat, Scan.close]
  | cons word words ih =>
    obtain ⟨hne, hplain⟩ := hwords word (by simp)
    cases words with
    | nil =>
      rw [templateFormat, ← List.append_nil (wordFormat word)] at hn
      obtain ⟨m, hm, hscan⟩ := scan_first print [] argv hne hplain hn
      have hlast : scanFormat print m [] [] ⟨argv, wordValue word, true⟩ = .ok (argv ++ [wordValue word]) := by
        cases m with
        | zero => cases hm
        | succ m => rfl
      rw [List.append_nil, List.append_nil, hlast] at hscan
      simpa [templateFormat, templateArgs] using hscan
    | cons next words =>
      rw [templateFormat] at hn ⊢
      · obtain ⟨m, hm, hscan⟩ := scan_first print (templateArgs (next :: words)) argv hne hplain hn
        rw [show templateArgs (word :: next :: words) =
          word.flatMap Piece.args ++ templateArgs (next :: words) from rfl, hscan]
        cases m with
        | zero => cases hm
        | succ m =>
          have hblank : scanFormat print (m + 1) (' ' :: templateFormat (next :: words))
              (templateArgs (next :: words)) ⟨argv, wordValue word, true⟩ =
              scanFormat print m (templateFormat (next :: words)) (templateArgs (next :: words))
                ⟨argv ++ [wordValue word], [], false⟩ := rfl
          rw [hblank, ih (fun w hw ↦ hwords w (by simp [hw])) (Nat.lt_of_succ_lt_succ hm),
            List.append_assoc]
          rfl
      · exact List.cons_ne_nil next words
      · exact List.cons_ne_nil next words

theorem nul_notMem_template {words : List (List Piece)}
    (hwords : ∀ word ∈ words, ∀ piece ∈ word, piece.Plain) : nul ∉ templateFormat words := by
  have hword {word : List Piece} (h : ∀ piece ∈ word, piece.Plain) : nul ∉ wordFormat word := by
    intro hmem
    obtain ⟨piece, hpiece, hnul⟩ := List.mem_flatMap.mp hmem
    have hplain := h piece hpiece
    cases piece with
    | literal c => exact hplain.2.2 (List.mem_singleton.mp hnul).symm
    | percent => exact absurd hnul (by decide)
    | text str => exact absurd hnul (show nul ∉ ['%', 's'] by decide)
    | sized bytes => exact absurd hnul (show nul ∉ ['%', 'b'] by decide)
  induction words with
  | nil => exact List.not_mem_nil
  | cons word words ih =>
    cases words with
    | nil => exact hword (hwords word (by simp))
    | cons next words =>
      rw [templateFormat]
      · simp only [List.mem_append, List.mem_cons, not_or]
        exact ⟨hword (hwords word (by simp)), by decide, ih (fun w hw ↦ hwords w (by simp [hw]))⟩
      · exact List.cons_ne_nil next words

end Templates

/-- A format made of literal text, placeholders for strings and placeholders for
bytes sends one argument for each of its words, with the values in place of the
placeholders: blanks, percent signs and line ends in a value stay in its argument. -/
theorem format_verbatim (print : Str → Arg → Str) (words : List (List Piece))
    (hwords : ∀ word ∈ words, word ≠ [] ∧ ∀ piece ∈ word, piece.Plain) :
    redisvFormatCommand print (templateFormat words) (templateArgs words) =
      .ok (encode (.array ((words.map wordValue).map .string))) := by
  have hscan : scanFormat print _ _ _ ⟨[], [], false⟩ = _ := scan_template hwords (Nat.lt_add_one _)
  rw [redisvFormatCommand, cString_of_nul_free (nul_notMem_template fun word hword ↦ (hwords word hword).2),
    hscan, List.nil_append]
  simp only [formatArgv_eq, Option.elim_some]

theorem format_verbatim_auth :
    redisvFormatCommand (fun _ _ ↦ []) "AUTH %s".toList [.text "a b\r\n%s".toList] =
      .ok "*2\r\n$4\r\nAUTH\r\n$7\r\na b\r\n%s\r\n".toList := by
  have h := format_verbatim (fun _ _ ↦ [])
    [[.literal 'A', .literal 'U', .literal 'T', .literal 'H'], [.text "a b\r\n%s".toList]]
    (by simp [Piece.Plain, nul])
  exact h.trans (congrArg Formatted.ok (by decide +kernel))

end Calcsig.Hiredis.Formats
