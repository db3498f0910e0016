import AetherOs.Kernel.Footprints
/-!
# The arguments of the file commands

`cat` and `rm` take their argument from `split_whitespace`, `write` cuts its
arguments out of the line itself.  The two agree on the lines in which single
spaces stand around the file name.
-/

namespace AetherOs.Kernel

open AetherOs.Support AetherOs.Support.Text AetherOs.Fs

/-- The line hands `vfs::write` the path `file` and contents made of `words`, and
with `cat` or `rm` in place of `write` it hands on the same path. -/
def ParsedAlike (command file : Str) (words : List Str) : Prop :=
  ∃ contents, commandOp command = some (.write file contents) ∧
    executeCommand command = fileCommand (.write file contents) ∧
    splitWhitespace contents = words ∧
    ∃ lead rest, command = lead ++ ("write".toList ++ rest) ∧ Blank lead ∧
      executeCommand (lead ++ ("cat".toList ++ rest)) = catCommand [file] ∧
      executeCommand (lead ++ ("rm".toList ++ rest)) = fileCommand (.remove file)

theorem splitWhitespace_verb_append {lead rest : Str} (verb : Str) (hverb : verb ≠ [])
    (hsolid : Solid verb) (hlead : Blank lead) (hrest : Gap rest) :
    splitWhitespace (lead ++ (verb ++ rest)) = verb :: splitWhitespace rest := by
  rw [splitWhitespace_blank_append hlead, splitWhitespace_word_append hverb hsolid hrest]

theorem parsedAlike_iff {command file word : Str} {words : List Str}
    (hwords : splitWhitespace command = "write".toList :: file :: word :: words) :
    ParsedAlike command file (word :: words) ↔
      ∃ text, command = "write".toList ++ ' ' :: (file ++ ' ' :: text) := by
  constructor
  · rintro ⟨contents, hop, -⟩
    rw [commandOp_of_write hwords] at hop
    obtain ⟨⟨path, contents'⟩, hparts, heq⟩ := Option.map_eq_some_iff.mp hop
    cases heq
    obtain ⟨args, hargs, hsplit⟩ := Option.bind_eq_some_iff.mp hparts
    have hcommand := stripPrefix_eq_some_iff.mp hargs
    rw [(splitOnce_eq_some_iff.mp hsplit).1] at hcommand
    exact ⟨contents, hcommand⟩
  · rintro ⟨text, hcommand⟩
    obtain ⟨lead, rest, hline, hlead, -, -, hgap, hrest⟩ := exists_first_word hwords
    obtain ⟨-, -, -, -, hne, hsolid, -, -⟩ := exists_first_word hrest
    have hspace : ' ' ∉ file := by
      intro hmem
      exact absurd (hsolid ' ' hmem) (by decide)
    have hop : commandOp command = some (.write file text) := by
      have hstrip : stripPrefix "write ".toList command = some (file ++ ' ' :: text) :=
        stripPrefix_eq_some_iff.mpr hcommand
      rw [commandOp_of_write hwords, hstrip, Option.bind_some, splitOnce_append hspace]
      rfl
    have htokens : splitWhitespace command = "write".toList :: file :: splitWhitespace text := by
      rw [hcommand, splitWhitespace_cons (by decide) (by decide),
        splitWhitespace_cons hne hsolid]
    refine ⟨text, hop, executeCommand_of_commandOp hop, ?_, lead, rest, hline, hlead, ?_, ?_⟩
    · rw [hwords, List.cons.injEq, List.cons.injEq] at htokens
      exact htokens.2.2.symm
    · have hcat := splitWhitespace_verb_append "cat".toList (by decide) (by decide) hlead hgap
      rw [hrest] at hcat
      exact executeCommand_of_cat hcat
    · have hrm := splitWhitespace_verb_append "rm".toList (by decide) (by decide) hlead hgap
      rw [hrest] at hrm
      exact executeCommand_of_commandOp (commandOp_of_rm hrm)

/-- Single spaces around the name; the spaces in the text are kept. -/
theorem parsedAlike_single_spaces :
    ParsedAlike "write notes  hi".toList "notes".toList ["hi".toList] :=
  (parsedAlike_iff (by decide)).mpr ⟨" hi".toList, by decide⟩

/-- A second space in front of the name makes the path empty. -/
theorem write_two_spaces :
    splitWhitespace "write  notes hi".toList = ["write".toList, "notes".toList, "hi".toList] ∧
      commandOp "write  notes hi".toList = some (.write [] "notes hi".toList) ∧
      executeCommand "rm  notes hi".toList = fileCommand (.remove "notes".toList) ∧
      ¬ParsedAlike "write  notes hi".toList "notes".toList ["hi".toList] := by
  have hop : commandOp "write  notes hi".toList = some (.write [] "notes hi".toList) := by decide
  refine ⟨by decide, hop, ?_, ?_⟩
  · exact executeCommand_of_commandOp (by decide)
  · rintro ⟨contents, hwrite, -⟩
    rw [hop] at hwrite
    cases hwrite

end AetherOs.Kernel
