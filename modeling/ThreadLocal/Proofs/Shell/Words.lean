import Mathlib.Data.List.Basic
import ThreadLocal.Shell.Words

/-!
Words that are quoted and put together to a command are the words of the command.
-/

namespace ThreadLocal
namespace Shell

/-- The command that has some words, each quoted where it must be, with a space between any two. -/
def join (words : List String) : String :=
  " ".intercalate (words.map quote)

/-- Between single quotes every character stands for itself, only a single quote has to be taken out. -/
def escape (c : Char) : List Char :=
  if c = '\'' then "'\"'\"'".toList else [c]

theorem toList_quote (word : String) :
    (quote word).toList =
      if word ≠ "" ∧ word.toList.all isPlain then word.toList else '\'' :: (word.toList.flatMap escape ++ ['\'']) := by
  unfold quote
  split
  next h => rfl
  next h => rw [String.toList_ofList]; rfl

/-- A plain character is none that a splitter takes for anything else. -/
theorem ne_of_isPlain {c d : Char} (plain : isPlain c = true) (other : isPlain d = false) : c ≠ d := by
  rintro rfl
  cases plain.symm.trans other

theorem isBlank_of_isPlain {c : Char} (plain : isPlain c = true) : isBlank c = false := by
  have hspace := ne_of_isPlain plain (d := ' ') (by decide)
  have htab := ne_of_isPlain plain (d := '\t') (by decide)
  have hreturn := ne_of_isPlain plain (d := '\r') (by decide)
  have hnewline := ne_of_isPlain plain (d := '\n') (by decide)
  simp [isBlank, hspace, htab, hreturn, hnewline]

section

variable {c : Char} {cs done rest : List Char}

theorem splitFrom_between_plain (plain : isPlain c = true) :
    splitFrom .between (c :: rest) = splitFrom (.word [c]) rest := by
  have hslash := ne_of_isPlain plain (d := '\\') (by decide)
  have hsingle := ne_of_isPlain plain (d := '\'') (by decide)
  have hdouble := ne_of_isPlain plain (d := '"') (by decide)
  rw [splitFrom]
  · simp [isBlank_of_isPlain plain, hsingle, hdouble]
  all_goals simp [hslash]

theorem splitFrom_word_plain (plain : isPlain c = true) :
    splitFrom (.word done) (c :: rest) = splitFrom (.word (c :: done)) rest := by
  have hslash := ne_of_isPlain plain (d := '\\') (by decide)
  have hsingle := ne_of_isPlain plain (d := '\'') (by decide)
  have hdouble := ne_of_isPlain plain (d := '"') (by decide)
  rw [splitFrom]
  · simp [isBlank_of_isPlain plain, hsingle, hdouble]
  all_goals simp [hslash]

theorem splitFrom_word_plains (plain : ∀ c ∈ cs, isPlain c = true) :
    splitFrom (.word done) (cs ++ rest) = splitFrom (.word (cs.reverse ++ done)) rest := by
  induction cs generalizing done with
  | nil => rfl
  | cons c cs ih =>
    obtain ⟨hc, hcs⟩ := List.forall_mem_cons.mp plain
    rw [List.cons_append, splitFrom_word_plain hc, ih hcs, List.reverse_cons, List.append_assoc]
    rfl

/-- An escaped character is read back inside single quotes; a single quote leaves them and comes back. -/
theorem splitFrom_single_escape (c : Char) :
    splitFrom (.single done) (escape c ++ rest) = splitFrom (.single (c :: done)) rest := by
  unfold escape
  split
  next h =>
    subst h
    simp [splitFrom, isBlank]
  next h => simp [splitFrom, h]

theorem splitFrom_single_escaped :
    splitFrom (.single done) (cs.flatMap escape ++ '\'' :: rest) = splitFrom (.word (cs.reverse ++ done)) rest := by
  induction cs generalizing done with
  | nil => simp [splitFrom]
  | cons c cs ih =>
    rw [List.flatMap_cons, List.append_assoc, splitFrom_single_escape, ih, List.reverse_cons, List.append_assoc]
    rfl

end

/-- Behind a quoted word the splitter stands in a word, which so far is that word. -/
theorem splitFrom_quote (word : String) (rest : List Char) :
    splitFrom .between ((quote word).toList ++ rest) = splitFrom (.word word.toList.reverse) rest := by
  rw [toList_quote]
  split
  next h =>
    have hplain := List.all_eq_true.mp h.2
    obtain ⟨c, cs, hword⟩ := List.exists_cons_of_ne_nil (fun hnil => h.1 (String.toList_eq_nil_iff.mp hnil))
    rw [hword] at hplain ⊢
    obtain ⟨hc, hcs⟩ := List.forall_mem_cons.mp hplain
    rw [List.cons_append, splitFrom_between_plain hc, splitFrom_word_plains hcs, List.reverse_cons]
  next h =>
    have hopen : splitFrom .between ('\'' :: (word.toList.flatMap escape ++ ['\''] ++ rest)) =
        splitFrom (.single []) (word.toList.flatMap escape ++ '\'' :: rest) := by
      simp [splitFrom, isBlank]
    rw [List.cons_append, hopen, splitFrom_single_escaped, List.append_nil]

theorem toList_join_cons (word next : String) (words : List String) :
    (join (word :: next :: words)).toList = (quote word).toList ++ ' ' :: (join (next :: words)).toList := by
  simp [join, String.intercalate_cons_cons]

theorem splitFrom_join (words : List String) :
    splitFrom .between (join words).toList = .ok (words.map String.toList) := by
  induction words with
  | nil => rfl
  | cons word rest ih =>
    cases rest with
    | nil =>
      have hquoted := splitFrom_quote word []
      rw [List.append_nil] at hquoted
      simp [join, hquoted, splitFrom]
    | cons next words =>
      have hspace : ∀ done tail, splitFrom (.word done) (' ' :: tail) =
          (splitFrom .between tail).map (done.reverse :: ·) := by
        intro done tail
        simp [splitFrom, isBlank]
      rw [toList_join_cons, splitFrom_quote, hspace, ih, List.reverse_reverse]
      rfl

/-- The words that a command was put together from are the words into which it is split. -/
theorem split_join (words : List String) : split (join words) = .ok words := by
  rw [split, splitFrom_join]
  simp [Except.map]

theorem join_eq_empty_iff {words : List String} : join words = "" ↔ words = [] := by
  constructor
  · intro h
    have hsplit := split_join words
    rw [h] at hsplit
    exact (Except.ok.inj hsplit).symm
  · rintro rfl
    rfl

end Shell
end ThreadLocal
