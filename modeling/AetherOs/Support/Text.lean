import Mathlib.Data.List.DropRight
import Mathlib.Data.List.TakeWhile
/-!
# Text

A `&str` is the list of its characters.  Its length and its bytes are those of
its UTF-8 encoding; `fromUtf8` is the strict decoder.  `trim` removes the
characters with the Unicode property `White_Space` at both ends.
-/

namespace AetherOs.Support.Text

abbrev Str := List Char

def asBytes (text : Str) : List UInt8 := text.flatMap String.utf8EncodeChar

/-- `str::len`, a number of bytes. -/
def len (text : Str) : Nat := (asBytes text).length

def fromUtf8 (bytes : List UInt8) : Option Str :=
  bytes.toByteArray.utf8Decode?.map Array.toList

def isWhitespace (c : Char) : Bool :=
  (9 ≤ c.toNat && c.toNat ≤ 13) || c.toNat = 0x20 || c.toNat = 0x85 || c.toNat = 0xA0 ||
    c.toNat = 0x1680 || (0x2000 ≤ c.toNat && c.toNat ≤ 0x200A) || c.toNat = 0x2028 ||
    c.toNat = 0x2029 || c.toNat = 0x202F || c.toNat = 0x205F || c.toNat = 0x3000

def trim (text : Str) : Str := (text.dropWhile isWhitespace).rdropWhile isWhitespace

def splitWhitespace (text : Str) : List Str := (text.splitOnP isWhitespace).filter (· ≠ [])

def stripPrefix (start text : Str) : Option Str :=
  if start <+: text then some (text.drop start.length) else none

/-- `str::split_once` with a character as separator. -/
def splitOnce (separator : Char) (text : Str) : Option (Str × Str) :=
  if separator ∈ text then
    some (text.takeWhile (· ≠ separator), (text.dropWhile (· ≠ separator)).drop 1)
  else none

/-- A number formatted with `{}`. -/
def decimal (n : Nat) : Str := Nat.toDigits 10 n

/-- A number formatted with `{:#x}`. -/
def hexadecimal (n : Nat) : Str := "0x".toList ++ Nat.toDigits 16 n

/-- A flag formatted with `{}`. -/
def boolean (b : Bool) : Str := if b then "true".toList else "false".toList

/-- An optional name formatted with `{:?}`; names have no character to escape. -/
def debugName : Option Str → Str
  | none => "None".toList
  | some name => "Some(\"".toList ++ name ++ "\")".toList

theorem exists_digit_of_mem_toDigits {base : Nat} (hbase : 1 < base) {n : Nat} {c : Char}
    (h : c ∈ Nat.toDigits base n) : ∃ d < base, c = d.digitChar := by
  induction n using Nat.strongRecOn with
  | ind n ih =>
      rw [Nat.toDigits_eq_if hbase] at h
      split_ifs at h with hsmall
      · exact ⟨n, hsmall, List.mem_singleton.mp h⟩
      · rcases List.mem_append.mp h with hfirst | hlast
        · exact ih (n / base) (Nat.div_lt_self (by omega) hbase) hfirst
        · exact ⟨n % base, Nat.mod_lt n (by omega), List.mem_singleton.mp hlast⟩

theorem notMem_decimal {c : Char} (hc : ∀ d < 10, c ≠ d.digitChar) (n : Nat) : c ∉ decimal n := by
  intro h
  obtain ⟨d, hd, heq⟩ := exists_digit_of_mem_toDigits (by decide) h
  exact hc d hd heq

theorem notMem_hexadecimal {c : Char} (hc : ∀ d < 16, c ≠ d.digitChar) (hx : c ≠ 'x') (n : Nat) :
    c ∉ hexadecimal n := by
  intro h
  rcases List.mem_append.mp h with hstart | hdigits
  · have hstart : c = '0' ∨ c = 'x' := by simpa using hstart
    rcases hstart with rfl | rfl
    · exact hc 0 (by decide) rfl
    · exact hx rfl
  · obtain ⟨d, hd, heq⟩ := exists_digit_of_mem_toDigits (by decide) hdigits
    exact hc d hd heq

@[simp] theorem stripPrefix_append (start text : Str) :
    stripPrefix start (start ++ text) = some text := by
  rw [stripPrefix, if_pos (List.prefix_append _ _), List.drop_left]

theorem stripPrefix_eq_some_iff {start text rest : Str} :
    stripPrefix start text = some rest ↔ text = start ++ rest := by
  constructor
  · intro h
    unfold stripPrefix at h
    split_ifs at h with hstart
    obtain ⟨tail, rfl⟩ := hstart
    rw [List.drop_left, Option.some.injEq] at h
    rw [h]
  · rintro rfl
    exact stripPrefix_append start rest

/-- Decided by going through the text, never through all characters. -/
instance decidableForallMem (p : Char → Prop) [DecidablePred p] (text : Str) :
    Decidable (∀ c ∈ text, p c) :=
  List.decidableBAll p text

def Solid (text : Str) : Prop := ∀ c ∈ text, isWhitespace c = false

instance : DecidablePred Solid :=
  fun text => inferInstanceAs (Decidable (∀ c ∈ text, isWhitespace c = false))

theorem splitWhitespace_word {word : Str} (hne : word ≠ []) (h : Solid word) :
    splitWhitespace word = [word] := by
  rw [splitWhitespace, List.splitOnP_eq_singleton h]
  simp [hne]

theorem splitWhitespace_word_cons {word : Str} (hne : word ≠ []) (h : Solid word) {c : Char}
    (hc : isWhitespace c = true) (text : Str) :
    splitWhitespace (word ++ c :: text) = word :: splitWhitespace text := by
  rw [splitWhitespace, List.splitOnP_append_cons_of_forall_mem h c hc]
  simp [hne, splitWhitespace]

theorem splitWhitespace_cons {word : Str} (hne : word ≠ []) (h : Solid word) (text : Str) :
    splitWhitespace (word ++ ' ' :: text) = word :: splitWhitespace text :=
  splitWhitespace_word_cons hne h (by decide) text

def Blank (text : Str) : Prop := ∀ c ∈ text, isWhitespace c = true

theorem splitWhitespace_blank_append {lead : Str} (h : Blank lead) (text : Str) :
    splitWhitespace (lead ++ text) = splitWhitespace text := by
  induction lead with
  | nil => rfl
  | cons c lead ih =>
      have hc : isWhitespace c = true := h c (by simp)
      have hskip : splitWhitespace (c :: (lead ++ text)) = splitWhitespace (lead ++ text) := by
        simp [splitWhitespace, List.splitOnP_cons_eq_if_modifyHead, hc]
      rw [List.cons_append, hskip, ih fun c' hc' => h c' (by simp [hc'])]

/-- Nothing, or white space first. -/
def Gap (text : Str) : Prop := ∀ c ∈ text.head?, isWhitespace c = true

theorem splitWhitespace_word_append {word rest : Str} (hne : word ≠ []) (h : Solid word)
    (hrest : Gap rest) : splitWhitespace (word ++ rest) = word :: splitWhitespace rest := by
  cases rest with
  | nil => rw [List.append_nil, splitWhitespace_word hne h]; rfl
  | cons c rest =>
      have hc : isWhitespace c = true := hrest c rfl
      have hskip : splitWhitespace (c :: rest) = splitWhitespace rest :=
        splitWhitespace_blank_append (by simpa [Blank] using hc : Blank [c]) rest
      rw [splitWhitespace_word_cons hne h hc, hskip]

theorem exists_first_word {text word : Str} {words : List Str}
    (h : splitWhitespace text = word :: words) :
    ∃ lead rest, text = lead ++ (word ++ rest) ∧ Blank lead ∧ word ≠ [] ∧ Solid word ∧
      Gap rest ∧ splitWhitespace rest = words := by
  have hsplit : text = text.takeWhile isWhitespace ++ text.dropWhile isWhitespace :=
    List.takeWhile_append_dropWhile.symm
  set lead := text.takeWhile isWhitespace
  set body := text.dropWhile isWhitespace with hbody
  have hlead : Blank lead := fun c hc => List.mem_takeWhile_imp hc
  set first := body.takeWhile (fun c => !isWhitespace c) with hfirst
  set rest := body.dropWhile (fun c => !isWhitespace c) with hrest
  have hparts : body = first ++ rest := List.takeWhile_append_dropWhile.symm
  have hsolid : Solid first := by
    intro c hc
    simpa using List.mem_takeWhile_imp hc
  have hgap : Gap rest := by
    intro c hc
    have hnot := List.head?_dropWhile_not (fun c => !isWhitespace c) body
    rw [← hrest, Option.mem_def.mp hc] at hnot
    simpa using hnot
  rw [hsplit, splitWhitespace_blank_append hlead] at h
  have hne : first ≠ [] := by
    intro hnil
    cases hcase : body with
    | nil =>
        rw [hcase] at h
        cases h
    | cons c tail =>
        have hc := List.head?_dropWhile_not isWhitespace text
        rw [← hbody, hcase] at hc
        have hc : isWhitespace c = false := hc
        simp [hfirst, hcase, hc] at hnil
  rw [hparts, splitWhitespace_word_append hne hsolid hgap, List.cons.injEq] at h
  obtain ⟨hword, hwords⟩ := h
  rw [hword] at hparts hne hsolid
  exact ⟨lead, rest, by rw [← hparts, ← hsplit], hlead, hne, hsolid, hgap, hwords⟩

theorem splitOnce_append {separator : Char} {before : Str} (h : separator ∉ before) (after : Str) :
    splitOnce separator (before ++ separator :: after) = some (before, after) := by
  have hbefore : ∀ c ∈ before, decide (c ≠ separator) = true := by
    intro c hc
    rw [decide_eq_true_eq]
    exact ne_of_mem_of_not_mem hc h
  rw [splitOnce, if_pos (by simp), List.takeWhile_append_of_pos hbefore,
    List.dropWhile_append_of_pos hbefore]
  simp

theorem splitOnce_eq_some_iff {separator : Char} {text before after : Str} :
    splitOnce separator text = some (before, after) ↔
      text = before ++ separator :: after ∧ separator ∉ before := by
  constructor
  · intro h
    unfold splitOnce at h
    split_ifs at h with hmem
    rw [Option.some.injEq, Prod.mk.injEq] at h
    obtain ⟨hbefore, hafter⟩ := h
    have hnot : separator ∉ before := by
      rw [← hbefore]
      intro hsep
      simpa using List.mem_takeWhile_imp hsep
    have hsplit : text = before ++ text.dropWhile (· ≠ separator) := by
      rw [← hbefore, List.takeWhile_append_dropWhile]
    cases hrest : text.dropWhile (· ≠ separator) with
    | nil =>
        rw [hrest, List.append_nil] at hsplit
        exact absurd (hsplit ▸ hmem) hnot
    | cons c tail =>
        have hc := List.head?_dropWhile_not (· ≠ separator) text
        rw [hrest] at hc
        have hc : c = separator := by simpa using hc
        rw [hrest, List.drop_succ_cons, List.drop_zero] at hafter
        rw [hrest, hc, hafter] at hsplit
        exact ⟨hsplit, hnot⟩
  · rintro ⟨rfl, hnot⟩
    exact splitOnce_append hnot after

theorem mem_of_splitOnce {separator c : Char} {text before after : Str}
    (h : splitOnce separator text = some (before, after)) (hc : c ∈ before) :
    c ∈ text ∧ c ≠ separator := by
  obtain ⟨rfl, hnot⟩ := splitOnce_eq_some_iff.mp h
  exact ⟨List.mem_append_left _ hc, ne_of_mem_of_not_mem hc hnot⟩

/-! ## Encoding -/

theorem asBytes_cons (c : Char) (text : Str) :
    asBytes (c :: text) = String.utf8EncodeChar c ++ asBytes text := rfl

@[simp] theorem fromUtf8_asBytes (text : Str) : fromUtf8 (asBytes text) = some text := by
  have hencode : (asBytes text).toByteArray = text.utf8Encode := rfl
  rw [fromUtf8, hencode, List.utf8Decode?_utf8Encode]
  simp

theorem asBytes_injective : Function.Injective asBytes := by
  intro text text' h
  have hdecode := congrArg fromUtf8 h
  simpa using hdecode

@[simp] theorem asBytes_inj {text text' : Str} : asBytes text = asBytes text' ↔ text = text' :=
  asBytes_injective.eq_iff

def Ascii (text : Str) : Prop := ∀ c ∈ text, c.toNat < 128

instance : DecidablePred Ascii :=
  fun text => inferInstanceAs (Decidable (∀ c ∈ text, c.toNat < 128))

theorem asBytes_of_ascii {text : Str} (h : Ascii text) :
    asBytes text = text.map fun c => UInt8.ofNat c.toNat := by
  induction text with
  | nil => rfl
  | cons c text ih =>
      have hc : c.val.toNat ≤ 127 := Nat.le_of_lt_succ (h c (by simp))
      have hencode : String.utf8EncodeChar c = [UInt8.ofNat c.toNat] := by
        simp only [String.utf8EncodeChar, if_pos hc]
        rfl
      rw [asBytes_cons, hencode, ih fun c' hc' => h c' (by simp [hc'])]
      rfl

/-! ## Trimming -/

def Trimmed (text : Str) : Prop :=
  (∀ c ∈ text.head?, isWhitespace c = false) ∧ ∀ c ∈ text.getLast?, isWhitespace c = false

theorem trim_of_trimmed {text : Str} (h : Trimmed text) : trim text = text := by
  have hleft : text.dropWhile isWhitespace = text := by
    cases text with
    | nil => rfl
    | cons c text =>
        have hc : isWhitespace c = false := h.1 c rfl
        rw [List.dropWhile_cons_of_neg (by simp [hc])]
  rw [trim, hleft, List.rdropWhile_eq_self_iff]
  intro hne
  rw [h.2 _ (List.getLast?_eq_getLast_of_ne_nil hne)]
  exact Bool.false_ne_true

theorem trimmed_trim (text : Str) : Trimmed (trim text) := by
  constructor
  · -- trimming the end keeps the first character, which the start was trimmed to
    intro c hc
    obtain ⟨rest, hrest⟩ := List.rdropWhile_prefix isWhitespace (l := text.dropWhile isWhitespace)
    have hhead : (text.dropWhile isWhitespace).head? = some c := by
      rw [← hrest, List.head?_append]
      rw [show (List.rdropWhile isWhitespace (text.dropWhile isWhitespace)).head? = some c from hc]
      rfl
    have hnot := List.head?_dropWhile_not isWhitespace text
    rw [hhead] at hnot
    exact hnot
  · intro c hc
    obtain ⟨hne, rfl⟩ := List.mem_getLast?_eq_getLast hc
    exact Bool.eq_false_iff.mpr (List.rdropWhile_last_not isWhitespace _ hne)

theorem trim_append {start rest : Str} (hstart : ∃ c ∈ start.head?, isWhitespace c = false)
    (hrest : ∃ c ∈ rest.getLast?, isWhitespace c = false) :
    trim (start ++ rest) = start ++ rest := by
  obtain ⟨first, hfirst, hfirstSolid⟩ := hstart
  obtain ⟨last, hlast, hlastSolid⟩ := hrest
  apply trim_of_trimmed
  constructor
  · rw [List.head?_append, Option.mem_def.mp hfirst]
    rintro c ⟨⟩
    exact hfirstSolid
  · rw [List.getLast?_append, Option.mem_def.mp hlast]
    rintro c ⟨⟩
    exact hlastSolid

theorem mem_of_mem_trim {text : Str} {c : Char} (h : c ∈ trim text) : c ∈ text :=
  (List.dropWhile_suffix _).subset ((List.rdropWhile_prefix _ _).subset h)

theorem Trimmed.cons {text : Str} (h : Trimmed text) {c : Char} (hc : isWhitespace c = false) :
    Trimmed (c :: text) := by
  refine ⟨by simpa using hc, ?_⟩
  cases text with
  | nil => simpa using hc
  | cons c' text => simpa using h.2

end AetherOs.Support.Text
