import ThreadLocal.Build.Command
import ThreadLocal.Proofs.Files.Canonical

/-!
The include directories of a command: each is found, in the order in which they stand there, whether it is joined to its
flag or is an argument of its own.
-/

namespace ThreadLocal
namespace CompileCommand

/-- What the arguments of a command say: something that is no include flag, or a directory joined to its flag or given
separately. Given separately it may be any text, also one that looks like a flag. -/
inductive Item where
  | other (argument : String) (plain : ¬ includeFlag.toList <+: argument.toList)
  | joined (directory : String) (nonempty : directory ≠ "")
  | separate (directory : String)

namespace Item

def arguments : Item → List String
  | other argument _ => [argument]
  | joined directory _ => [includeFlag ++ directory]
  | separate directory => [includeFlag, directory]

def directory? : Item → Option String
  | other _ _ => none
  | joined directory _ => some directory
  | separate directory => some directory

/-- The same item, or its directory in the other spelling. -/
inductive Respelled : Item → Item → Prop where
  | same (i : Item) : Respelled i i
  | parted (directory : String) (nonempty : directory ≠ "") : Respelled (joined directory nonempty) (separate directory)
  | merged (directory : String) (nonempty : directory ≠ "") : Respelled (separate directory) (joined directory nonempty)

theorem Respelled.directory?_eq {i j : Item} (h : Respelled i j) : j.directory? = i.directory? := by
  cases h <;> rfl

/-- The directories that some items name. -/
def directories (items : List Item) : List String :=
  items.filterMap directory?

theorem directories_respelled {items others : List Item} (h : List.Forall₂ Respelled items others) :
    directories others = directories items := by
  induction h with
  | nil => rfl
  | cons h _ ih => simp only [directories, List.filterMap_cons, h.directory?_eq] at ih ⊢; rw [ih]

/-- The arguments of some items, perhaps with an include flag at the end that nothing follows. -/
def written (items : List Item) (trailing : Bool) : List String :=
  items.flatMap arguments ++ if trailing then [includeFlag] else []

end Item

variable {c : CompileCommand} {base : String}

theorem joinedDirectory?_other {argument : String} (plain : ¬ includeFlag.toList <+: argument.toList) :
    c.joinedDirectory? (.str argument) = .ok none := by
  have hprefix : includeFlag.toList.isPrefixOf argument.toList = false := by
    rw [Bool.eq_false_iff]
    exact mt List.isPrefixOf_iff_prefix.mp plain
  simp [joinedDirectory?, hprefix]

theorem joinedDirectory?_joined (directory : c.directory = .str base) {d : String} (nonempty : d ≠ "") :
    c.joinedDirectory? (.str (includeFlag ++ d)) = .ok (some ((Path.ofText base).join (Path.ofText d))) := by
  have hchars : (includeFlag ++ d).toList = '-' :: 'I' :: d.toList := by simp [includeFlag]
  have hlength : 2 < (includeFlag ++ d).length := by
    have hd : 0 < d.toList.length := List.length_pos_iff.mpr (mt String.toList_eq_nil_iff.mp nonempty)
    rw [← String.length_toList, hchars, List.length_cons, List.length_cons]
    omega
  have hprefix : includeFlag.toList.isPrefixOf ('-' :: 'I' :: d.toList) = true := rfl
  simp only [joinedDirectory?, directoryPath, pathOf, directory, hchars, hlength, hprefix, and_self, if_true]
  simp only [List.drop_succ_cons, List.drop_zero, String.ofList_toList]
  rfl

theorem separateDirectory_text (directory : c.directory = .str base) (d : String) :
    c.separateDirectory (.str d) = .ok ((Path.ofText base).join (Path.ofText d)) := by
  simp only [separateDirectory, directoryPath, pathOf, directory]
  rfl

/-- Only a flag alone takes the argument behind it. -/
theorem directoriesIn_alone {argument : String} (h : argument ≠ includeFlag) (rest : List Json) :
    c.directoriesIn (.str argument :: rest) = do
      let d ← c.joinedDirectory? (.str argument)
      return d.toList ++ (← c.directoriesIn rest) := by
  rw [directoriesIn]
  intro next rest' he
  exact absurd (Json.str.inj he) h

theorem directoriesIn_item (directory : c.directory = .str base) (i : Item) {rest : List Json} {dirs : List Path}
    (h : c.directoriesIn rest = .ok dirs) : c.directoriesIn (i.arguments.map .str ++ rest) =
      .ok (i.directory?.toList.map (fun d => (Path.ofText base).join (Path.ofText d)) ++ dirs) := by
  cases i with
  | other argument plain =>
    have hne : argument ≠ includeFlag := by
      rintro rfl
      exact plain (List.prefix_refl _)
    simp only [Item.arguments, List.map_cons, List.map_nil, List.cons_append, List.nil_append]
    rw [directoriesIn_alone hne, joinedDirectory?_other plain, h]
    rfl
  | joined d nonempty =>
    have hne : includeFlag ++ d ≠ includeFlag := by
      intro he
      exact nonempty (by simpa using he)
    simp only [Item.arguments, List.map_cons, List.map_nil, List.cons_append, List.nil_append]
    rw [directoriesIn_alone hne, joinedDirectory?_joined directory nonempty, h]
    rfl
  | separate d =>
    have hstep : c.directoriesIn (.str "-I" :: .str d :: rest) = do
        let path ← c.separateDirectory (.str d)
        return path :: (← c.directoriesIn rest) := by
      rw [directoriesIn]
    change c.directoriesIn (.str "-I" :: .str d :: rest) = _
    rw [hstep, separateDirectory_text directory, h]
    rfl

theorem directoriesIn_written (directory : c.directory = .str base) (items : List Item) (trailing : Bool) :
    c.directoriesIn ((Item.written items trailing).map .str) =
      .ok ((Item.directories items).map fun d => (Path.ofText base).join (Path.ofText d)) := by
  induction items with
  | nil =>
    cases trailing with
    | false => rfl
    | true => rfl
  | cons i rest ih =>
    have hwritten : (Item.written (i :: rest) trailing).map Json.str =
        i.arguments.map .str ++ (Item.written rest trailing).map .str := by
      simp [Item.written]
    rw [hwritten, directoriesIn_item directory i ih]
    cases hd : i.directory? with
    | none => simp [Item.directories, hd]
    | some d => simp [Item.directories, hd]

theorem includeDirectories_eq_ok_iff {fs : Files} {arguments : List Json} {dirs : List Path} {found : List Location}
    (parts : c.parts = .ok (.arr arguments)) (named : c.directoriesIn arguments = .ok dirs) :
    c.includeDirectories fs = .ok found ↔ List.Forall₂ (fun p l => fs.resolve p = .ok l) dirs found := by
  have harguments : argumentList (.arr arguments) = .ok arguments := rfl
  simp only [includeDirectories, parts, bind_eq_ok_iff, Except.ok.injEq, exists_eq_left', harguments, named,
    mapM_eq_ok_iff, mapError_eq_ok_iff]

/-- The include directories of a command are the directories that its items name, in their order, each taken below the
directory of the command and resolved. They do not depend on how they are spelled. -/
theorem includes_found_in_either_spelling {fs : Files} (directory : c.directory = .str base) {items : List Item}
    {trailing : Bool} (parts : c.parts = .ok (.arr ((Item.written items trailing).map .str)))
    (passable : ∀ d ∈ Item.directories items, fs.Passable ((Path.ofText base).join (Path.ofText d))) :
    ∃ found, c.includeDirectories fs = .ok found ∧
      List.Forall₂ (fun d l => fs.resolve ((Path.ofText base).join (Path.ofText d)) = .ok l)
        (Item.directories items) found ∧
      ∀ (respelled : CompileCommand) (others : List Item) (trailing' : Bool),
        List.Forall₂ Item.Respelled items others → respelled.directory = c.directory →
        respelled.parts = .ok (.arr ((Item.written others trailing').map .str)) →
        respelled.includeDirectories fs = .ok found := by
  have hresolve : ∀ d ∈ Item.directories items, ∃ l,
      fs.resolve ((Path.ofText base).join (Path.ofText d)) = .ok l := by
    intro d hd
    obtain ⟨l, -, hl⟩ := (passable d hd).walks
    exact ⟨l, hl⟩
  obtain ⟨found, hfound⟩ := exists_forall₂ hresolve
  have hall : ∀ (e : CompileCommand) (others : List Item) (trailing' : Bool), e.directory = .str base →
      Item.directories others = Item.directories items →
      e.parts = .ok (.arr ((Item.written others trailing').map .str)) → e.includeDirectories fs = .ok found := by
    intro e others trailing' hdirectory hsame hparts
    rw [includeDirectories_eq_ok_iff hparts (directoriesIn_written hdirectory others trailing'), hsame,
      List.forall₂_map_left_iff]
    exact hfound
  refine ⟨found, hall c items trailing directory rfl parts, hfound, ?_⟩
  intro respelled others trailing' hspelled hdirectory hparts
  exact hall respelled others trailing' (hdirectory.trans directory) (Item.directories_respelled hspelled) hparts

/-! A command with a directory that looks like a flag, one behind a link, an empty one and an absolute one, and the same
command with all but the empty one in the other spelling. -/

namespace FlagLike

def files : Files where
  entries := [
    (["p"], .directory),
    (["p", "real"], .directory),
    (["p", "inc"], .link "real"),
    (["abs"], .directory)]
  here := []

def compile : Item := .other "cc" (by decide)

def source : Item := .other "a.c" (by decide)

def items : List Item :=
  [compile, .separate "-Iodd", .joined "inc" (by decide), .separate "", source, .separate "/abs"]

def others : List Item :=
  [compile, .joined "-Iodd" (by decide), .separate "inc", .separate "", source, .joined "/abs" (by decide)]

def command (items : List Item) (trailing : Bool) : CompileCommand :=
  ⟨.str "/p", .str "a.c", .null, .arr ((Item.written items trailing).map .str), .null⟩

theorem respelled : List.Forall₂ Item.Respelled items others :=
  .cons (.same _) (.cons (.merged _ _) (.cons (.parted _ _) (.cons (.same _) (.cons (.same _) (.cons (.merged _ _) .nil)))))

end FlagLike

theorem flagLike_found_in_either_spelling :
    (FlagLike.command FlagLike.items true).includeDirectories FlagLike.files =
        .ok [["p", "-Iodd"], ["p", "real"], ["p"], ["abs"]] ∧
      (FlagLike.command FlagLike.others false).includeDirectories FlagLike.files =
        .ok [["p", "-Iodd"], ["p", "real"], ["p"], ["abs"]] := by
  obtain ⟨found, hfound, -, hrespelled⟩ := @includes_found_in_either_spelling
    (FlagLike.command FlagLike.items true) "/p" FlagLike.files rfl FlagLike.items true rfl (by decide +kernel)
  have hplaces : (FlagLike.command FlagLike.items true).includeDirectories FlagLike.files =
      .ok [["p", "-Iodd"], ["p", "real"], ["p"], ["abs"]] := by
    decide +kernel
  obtain rfl := Except.ok.inj (hplaces.symm.trans hfound)
  exact ⟨hfound, hrespelled _ FlagLike.others false FlagLike.respelled rfl rfl⟩

end CompileCommand
end ThreadLocal
