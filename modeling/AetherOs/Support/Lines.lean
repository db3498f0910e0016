import AetherOs.Support.Text
import Mathlib.Data.List.Infix
/-!
# Lines of text

Text written line by line, searched for a word that stands within one line, and
sent over a line that wants a carriage return before every line feed.
-/

namespace AetherOs.Support.Text

/-- A word without the separator lies on one side of it. -/
theorem infix_append_cons_iff {α : Type} {separator : α} {word before after : List α}
    (h : separator ∉ word) :
    word <:+: before ++ separator :: after ↔ word <:+: before ∨ word <:+: after := by
  constructor
  · rintro ⟨start, rest, heq⟩
    rw [List.append_assoc] at heq
    rcases List.append_eq_append_iff.mp heq with ⟨mid, hbefore, hmid⟩ | ⟨mid, hstart, hmid⟩
    · rcases List.append_eq_append_iff.mp hmid with ⟨tail, hword, -⟩ | ⟨tail, hword, htail⟩
      · left
        exact ⟨start, tail, by rw [hbefore, hword, List.append_assoc]⟩
      · cases tail with
        | nil =>
            left
            exact ⟨start, [], by rw [hbefore, hword]; simp⟩
        | cons c tail =>
            obtain ⟨rfl, -⟩ := List.cons_eq_cons.mp htail
            exact absurd (by simp [hword]) h
    · cases mid with
      | cons c mid =>
          right
          rw [List.cons_append] at hmid
          obtain ⟨-, hafter⟩ := List.cons_eq_cons.mp hmid
          exact ⟨mid, rest, by rw [hafter, List.append_assoc]⟩
      | nil =>
          cases word with
          | nil => exact Or.inl List.nil_infix
          | cons c word =>
              obtain ⟨rfl, -⟩ := List.cons_eq_cons.mp hmid
              exact absurd List.mem_cons_self h
  · rintro (hbefore | hafter)
    · exact hbefore.trans (List.prefix_append _ _).isInfix
    · exact hafter.trans ((List.suffix_cons _ _).trans (List.suffix_append _ _)).isInfix

theorem not_infix_of_notMem {c : Char} {word text : Str} (hc : c ∈ word) (h : c ∉ text) :
    ¬ word <:+: text :=
  fun hfound => h (hfound.subset hc)

/-! ## Whole lines -/

def unlines (lines : List Str) : Str := lines.flatMap fun line => line ++ ['\n']

theorem unlines_append (lines lines' : List Str) :
    unlines (lines ++ lines') = unlines lines ++ unlines lines' :=
  List.flatMap_append

theorem unlines_singleton (line : Str) : unlines [line] = line ++ ['\n'] := by
  simp [unlines]

/-- A word without line feed does not reach from a line into what comes after it. -/
theorem infix_unlines_append {word : Str} (h : '\n' ∉ word) {lines : List Str} {text : Str}
    (hfound : word <:+: unlines lines ++ text) :
    (∃ line ∈ lines, word <:+: line) ∨ word <:+: text := by
  induction lines with
  | nil => exact Or.inr hfound
  | cons line lines ih =>
      have hsplit : unlines (line :: lines) ++ text = line ++ '\n' :: (unlines lines ++ text) := by
        simp [unlines]
      rw [hsplit, infix_append_cons_iff h] at hfound
      rcases hfound with hhere | hlater
      · exact Or.inl ⟨line, List.mem_cons_self, hhere⟩
      · rcases ih hlater with ⟨line', hmem, hline'⟩ | htext
        · exact Or.inl ⟨line', List.mem_cons_of_mem line hmem, hline'⟩
        · exact Or.inr htext

theorem line_cases {P : Str → Prop} (hlast : ∀ line, '\n' ∉ line → P line)
    (hnext : ∀ line rest, '\n' ∉ line → P rest → P (line ++ '\n' :: rest)) (text : Str) :
    P text := by
  induction hlen : text.length using Nat.strongRecOn generalizing text with
  | ind n ih =>
      by_cases hmem : '\n' ∈ text
      · obtain ⟨line, rest, rfl, hline⟩ := List.eq_append_cons_of_mem hmem
        apply hnext line rest hline
        apply ih rest.length _ rest rfl
        rw [← hlen, List.length_append, List.length_cons]
        omega
      · exact hlast text hmem

/-! ## Pieces of a text -/

def Embeds {α : Type} : List (List α) → List α → Prop
  | [], _ => True
  | piece :: pieces, text => ∃ before after, text = before ++ piece ++ after ∧ Embeds pieces after

theorem Embeds.append_left {α : Type} {pieces : List (List α)} {text : List α}
    (h : Embeds pieces text) (before : List α) : Embeds pieces (before ++ text) := by
  cases pieces with
  | nil => trivial
  | cons piece pieces =>
      obtain ⟨start, after, rfl, hrest⟩ := h
      exact ⟨before ++ start, after, by simp only [List.append_assoc], hrest⟩

theorem Embeds.append {α : Type} {pieces pieces' : List (List α)} {text text' : List α}
    (h : Embeds pieces text) (h' : Embeds pieces' text') :
    Embeds (pieces ++ pieces') (text ++ text') := by
  induction pieces generalizing text with
  | nil => exact h'.append_left text
  | cons piece pieces ih =>
      obtain ⟨before, after, rfl, hrest⟩ := h
      exact ⟨before, after ++ text', by simp only [List.append_assoc], ih hrest⟩

theorem embeds_flatten {α : Type} (pieces : List (List α)) : Embeds pieces pieces.flatten := by
  induction pieces with
  | nil => trivial
  | cons piece pieces ih => exact ⟨[], pieces.flatten, rfl, ih⟩

/-! ## Carriage returns -/

def crlf (text : Str) : Str := text.flatMap fun c => if c = '\n' then ['\r', '\n'] else [c]

theorem crlf_append (text text' : Str) : crlf (text ++ text') = crlf text ++ crlf text' :=
  List.flatMap_append

theorem crlf_line {line : Str} (h : '\n' ∉ line) : crlf line = line := by
  induction line with
  | nil => rfl
  | cons c line ih =>
      rw [List.mem_cons, not_or] at h
      rw [crlf, List.flatMap_cons, if_neg (Ne.symm h.1)]
      exact congrArg (c :: ·) (ih h.2)

theorem crlf_append_cons {line : Str} (h : '\n' ∉ line) (rest : Str) :
    crlf (line ++ '\n' :: rest) = (line ++ ['\r']) ++ '\n' :: crlf rest := by
  rw [crlf_append, crlf_line h]
  simp [crlf]

/-- Carriage returns hide no word. -/
theorem infix_crlf_iff {word : Str} (hn : '\n' ∉ word) (hr : '\r' ∉ word) (text : Str) :
    word <:+: crlf text ↔ word <:+: text := by
  refine line_cases (P := fun text => word <:+: crlf text ↔ word <:+: text) ?_ ?_ text
  · intro line hline
    rw [crlf_line hline]
  · intro line rest hline ih
    have hend : word <:+: [] → word <:+: line := fun h => List.infix_nil.mp h ▸ List.nil_infix
    rw [crlf_append_cons hline, infix_append_cons_iff hn, infix_append_cons_iff hn,
      infix_append_cons_iff hr, ih]
    tauto

end AetherOs.Support.Text
