import ThreadLocal.Build.Command
import ThreadLocal.Proofs.Shell.Words

/-!
An entry of a compilation database means the same whether its command is written as one text or as a list of arguments.
-/

namespace ThreadLocal
namespace CompileCommand

variable {c d : CompileCommand}

theorem separateDirectory_congr (h : c.directory = d.directory) : c.separateDirectory = d.separateDirectory := by
  funext argument
  simp only [separateDirectory, directoryPath, h]

theorem joinedDirectory?_congr (h : c.directory = d.directory) : c.joinedDirectory? = d.joinedDirectory? := by
  funext argument
  simp only [joinedDirectory?, directoryPath, h]

/-- Of an entry itself only the directory counts for the directories that its arguments name. -/
theorem directoriesIn_congr (h : c.directory = d.directory) (arguments : List Json) :
    c.directoriesIn arguments = d.directoriesIn arguments := by
  induction arguments using directoriesIn.induct with
  | case1 => rfl
  | case2 next rest ih => simp only [directoriesIn, separateDirectory_congr h, ih]
  | case3 argument rest single ih =>
    rw [directoriesIn, directoriesIn, joinedDirectory?_congr h, ih]
    all_goals exact single

theorem includeDirectories_congr (h : c.directory = d.directory) (same : c.parts = d.parts) (fs : Files) :
    c.includeDirectories fs = d.includeDirectories fs := by
  simp only [includeDirectories, same, directoriesIn_congr h]

theorem parts_of_arguments {arguments : List Json} (listed : c.arguments = .arr arguments) (alone : c.command = .null) :
    c.parts = .ok (.arr arguments) := by
  cases arguments with
  | nil => simp [parts, listed, alone, Json.isTruthy]
  | cons first rest => simp [parts, listed, Json.isTruthy]

/-- A command that is put together from some words has these words, also if there are none. -/
theorem parts_of_command {words : List String} (written : c.command = .str (Shell.join words))
    (alone : c.arguments = .null) : c.parts = .ok (.arr (words.map .str)) := by
  by_cases hnone : words = []
  · subst hnone
    simp [parts, written, alone, Json.isTruthy, Shell.join]
  · have hsome : Shell.join words ≠ "" := mt Shell.join_eq_empty_iff.mp hnone
    simp [parts, written, alone, Json.isTruthy, hsome, Shell.split_join]

/-- Two entries with one directory and one file, of which one lists its arguments and the other has them quoted in one
command, are both accepted. Both have these arguments as their words, and both have the same include directories,
whatever the files are. -/
theorem spellings_agree (directory file : Json) (arguments : List String) :
    ∃ listed written : CompileCommand,
      ofJson (.obj [("directory", directory), ("file", file), ("arguments", .arr (arguments.map .str))]) = .ok listed ∧
      ofJson (.obj [("directory", directory), ("file", file), ("command", .str (Shell.join arguments))]) = .ok written ∧
      listed.parts = .ok (.arr (arguments.map .str)) ∧ written.parts = .ok (.arr (arguments.map .str)) ∧
      ∀ fs, listed.includeDirectories fs = written.includeDirectories fs := by
  have hlisted := @parts_of_arguments ⟨directory, file, .null, .arr (arguments.map .str), .null⟩ _ rfl rfl
  have hwritten := @parts_of_command ⟨directory, file, .str (Shell.join arguments), .null, .null⟩ _ rfl rfl
  exact ⟨_, _, rfl, rfl, hlisted, hwritten, includeDirectories_congr rfl (hlisted.trans hwritten.symm)⟩

end CompileCommand
end ThreadLocal
