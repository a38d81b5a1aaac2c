import Mathlib
import MarkovElimination.Model.Files
import MarkovElimination.Number.Rational

/-! # Which files a path leads to

A model is named by its file of transitions. Its stem is that path without the extension, and the
extension of the stem is replaced once more for every file that is read (`withExtension_modelStem`).
So the named file is read exactly if the stem has no extension of its own (`load_modelStem`):
`m.v2.tra` leads to the files of `m`. -/

namespace MarkovElimination

namespace Path

variable {directory name front back ext new : List Char}

/-! ### File names -/

/-- A dot that starts a name does not begin an extension. -/
theorem stem_eq_self (h : '.' ∉ name.tail) : stem name = name := by
  cases name with
  | nil => rfl
  | cons c rest =>
    have hdrop : (c :: rest).reverse.dropWhile (· != '.') = if c = '.' then ['.'] else [] := by
      rw [List.reverse_cons, List.dropWhile_append_of_pos fun d hd => ?_]
      · by_cases hc : c = '.' <;> simp [hc]
      · rw [bne_iff_ne]
        rintro rfl
        exact h (List.mem_reverse.1 hd)
    rw [stem, hdrop]
    by_cases hc : c = '.' <;> simp [hc]

/-- An extension is what stands behind the last dot. -/
theorem stem_append (hfront : front ≠ []) (hback : '.' ∉ back) :
    stem (front ++ '.' :: back) = front := by
  have hdrop : (front ++ '.' :: back).reverse.dropWhile (· != '.') = '.' :: front.reverse := by
    rw [List.reverse_append, List.reverse_cons, List.append_assoc, List.singleton_append,
      List.dropWhile_append_of_pos fun c hc => ?_, List.dropWhile_cons_of_neg (by simp)]
    rw [bne_iff_ne]
    rintro rfl
    exact hback (List.mem_reverse.1 hc)
  obtain ⟨c, rest, hrev⟩ := List.exists_cons_of_ne_nil (List.reverse_ne_nil_iff.2 hfront)
  rw [stem, hdrop, hrev]
  show (c :: rest).reverse = front
  rw [← hrev, List.reverse_reverse]

theorem extension_append (hfront : front ≠ []) (hback : '.' ∉ back) :
    extension (front ++ '.' :: back) = back := by
  rw [extension, stem_append hfront hback]
  simp

/-- A name has no extension, or it ends in one. -/
theorem exists_extension (name : List Char) : '.' ∉ name.tail ∨
    ∃ front back, name = front ++ '.' :: back ∧ front ≠ [] ∧ '.' ∉ back := by
  cases name with
  | nil => exact .inl (by simp)
  | cons c rest =>
    by_cases hdot : '.' ∈ rest
    · obtain ⟨back, front, hrest, hback⟩ :=
        List.eq_append_cons_of_mem (List.mem_reverse.2 hdot)
      refine .inr ⟨c :: front.reverse, back.reverse, ?_, by simp, by simpa using hback⟩
      rw [← List.reverse_reverse rest, hrest]
      simp
    · exact .inl hdot

/-- Only a name without an extension is its own stem. -/
theorem not_mem_tail_of_stem_eq (h : stem name = name) : '.' ∉ name.tail := by
  rcases exists_extension name with hdots | ⟨front, back, rfl, hfront, hback⟩
  · exact hdots
  · rw [stem_append hfront hback] at h
    simp at h

/-! ### Paths -/

/-- What can stand in front of a file name: nothing, or a text that ends in a separator. -/
def IsDirectory (directory : List Char) : Prop :=
  directory = [] ∨ ∃ parent, directory = parent ++ ['/']

/-- A path is cut before its file name, unless that is `..`. -/
theorem split?_append (hdirectory : IsDirectory directory) (hslash : '/' ∉ name)
    (hname : name ∉ [[], ['.']]) :
    split? (directory ++ name) = if name = ['.', '.'] then none else some (directory, name) := by
  simp only [List.mem_cons, List.not_mem_nil, or_false, not_or] at hname
  obtain ⟨c, rest, hrev⟩ := List.exists_cons_of_ne_nil (List.reverse_ne_nil_iff.2 hname.1)
  have hslash' : '/' ∉ c :: rest := by rwa [← hrev, List.mem_reverse]
  -- Neither a separator nor the component `.` stands at the end.
  have htrivial : dropTrivial (directory ++ name).reverse = name.reverse ++ directory.reverse := by
    rw [List.reverse_append, hrev, List.cons_append, dropTrivial]
    · rintro tail heq
      cases (List.cons.inj heq).1
      simp at hslash'
    · rintro tail heq
      obtain ⟨rfl, htail⟩ := List.cons.inj heq
      cases rest with
      | nil => exact hname.2 (by simpa using congrArg List.reverse hrev)
      | cons d rest =>
        cases (List.cons.inj htail).1
        simp at hslash'
  have hend : directory.reverse.takeWhile (· != '/') = [] ∧
      directory.reverse.dropWhile (· != '/') = directory.reverse := by
    rcases hdirectory with rfl | ⟨parent, rfl⟩ <;> simp
  have hpass : ∀ d ∈ name.reverse, (d != '/') = true := by
    intro d hd
    rw [bne_iff_ne]
    rintro rfl
    exact hslash (List.mem_reverse.1 hd)
  rw [split?, htrivial, List.takeWhile_append_of_pos hpass, List.dropWhile_append_of_pos hpass,
    hend.1, hend.2, List.append_nil, List.reverse_reverse, List.reverse_reverse]
  simp [hname.1, hname.2]

/-- Nothing can be put on `..`. -/
theorem withExtension_parent (hdirectory : IsDirectory directory) (new : List Char) :
    withExtension (directory ++ ['.', '.']) new = directory ++ ['.', '.'] := by
  have hsplit : split? (directory ++ ['.', '.']) = none :=
    split?_append hdirectory (by decide) (by decide)
  rw [withExtension, dropExtension, hsplit]
  dsimp only
  rw [hsplit]

/-- The end of a path with an extension; the empty extension has no dot. -/
theorem withExtension_of_split? (hsplit : split? (dropExtension (directory ++ name)) =
    some (directory, front)) (new : List Char) :
    withExtension (directory ++ name) new =
      directory ++ (stem front ++ if new = [] then [] else '.' :: new) := by
  rw [withExtension, hsplit]
  dsimp only
  rw [List.append_assoc]

/-- **An extension is put on** a name that has none. -/
theorem withExtension_of_not_mem (hdirectory : IsDirectory directory) (hslash : '/' ∉ name)
    (hname : name ∉ [[], ['.']]) (hdots : '.' ∉ name.tail) (new : List Char) :
    withExtension (directory ++ name) new =
      directory ++ (name ++ if new = [] then [] else '.' :: new) := by
  have hparent : name ≠ ['.', '.'] := by
    rintro rfl
    simp at hdots
  have hsplit : split? (directory ++ name) = some (directory, name) := by
    rw [split?_append hdirectory hslash hname, if_neg hparent]
  have hdrop : dropExtension (directory ++ name) = directory ++ name := by
    rw [dropExtension, hsplit]
    dsimp only
    rw [extension, stem_eq_self hdots]
    simp
  rw [withExtension_of_split? (hdrop ▸ hsplit), stem_eq_self hdots]

/-- **An extension is replaced.** What is left of a name such as `..x` is no file name. -/
theorem withExtension_append (hdirectory : IsDirectory directory)
    (hslash : '/' ∉ front ++ '.' :: back) (hfront : front ≠ []) (hback : '.' ∉ back)
    (new : List Char) :
    withExtension (directory ++ (front ++ '.' :: back)) new =
      if front = ['.'] then directory ++ ['.', '.']
      else directory ++ (front ++ if new = [] then [] else '.' :: new) := by
  by_cases hparent : front ++ '.' :: back = ['.', '.']
  · obtain ⟨c, rest, rfl⟩ := List.exists_cons_of_ne_nil hfront
    have hdot : c :: rest = ['.'] := by cases rest <;> simp_all
    rw [hparent, if_pos hdot, withExtension_parent hdirectory]
  · have hname (tail : List Char) : front ++ '.' :: tail ∉ [[], ['.']] := by
      cases front <;> simp_all
    have hdrop : dropExtension (directory ++ (front ++ '.' :: back)) =
        directory ++ (front ++ ['.']) := by
      rw [dropExtension, split?_append hdirectory hslash (hname back), if_neg hparent]
      dsimp only
      rw [extension_append hfront hback, List.append_cons, ← List.append_assoc,
        List.length_append, Nat.add_sub_cancel, List.take_left]
    have hslash' : '/' ∉ front ++ ['.'] := by simp_all
    have hsplit := split?_append hdirectory hslash' (hname [])
    by_cases hdot : front = ['.']
    · rw [if_pos hdot, withExtension, hdrop, hdot]
      rw [hdot, List.singleton_append, if_pos rfl] at hsplit
      rw [List.singleton_append, hsplit]
    · have hne : front ++ ['.'] ≠ ['.', '.'] := fun heq =>
        hdot (List.append_cancel_right (show front ++ ['.'] = ['.'] ++ ['.'] from heq))
      rw [if_neg hne, ← hdrop] at hsplit
      rw [if_neg hdot, withExtension_of_split? hsplit, stem_append hfront (by simp)]

/-- **The path of a model file**, if another file of the model is named. -/
theorem withExtension_modelStem (hdirectory : IsDirectory directory) (hname : name ≠ [])
    (hslash : '/' ∉ name ++ '.' :: ext) (hext : '.' ∉ ext) (hnew : new ≠ []) :
    withExtension (modelStem (directory ++ (name ++ '.' :: ext))) new =
      if stem name = ['.'] then directory ++ ['.', '.']
      else directory ++ (stem name ++ '.' :: new) := by
  rw [modelStem, withExtension_append hdirectory hslash hname hext]
  by_cases hdot : name = ['.']
  · rw [if_pos hdot, withExtension_parent hdirectory, hdot]
    rfl
  · rw [if_neg hdot, if_pos rfl, List.append_nil]
    have hslash' : '/' ∉ name := fun h => hslash (List.mem_append_left _ h)
    rcases exists_extension name with hdots | ⟨front, back, rfl, hfront, hback⟩
    · rw [withExtension_of_not_mem hdirectory hslash' (by simp [hname, hdot]) hdots, if_neg hnew,
        stem_eq_self hdots, if_neg hdot]
    · rw [withExtension_append hdirectory hslash' hfront hback, stem_append hfront hback,
        if_neg hnew]

end Path

/-! ### Models -/

namespace FileSystem

variable {directory name common : List Char} {files : FileSystem}

/-- The texts of the files whose paths continue a common part by `.tra`, `.lab`, `.rew` and
`.trew`. -/
def textsAt (files : FileSystem) (common : List Char) : Except ModelError ModelTexts := do
  let file (ext : String) := common ++ '.' :: ext.toList
  let transitions ← files.require (file "tra")
  let labels ← files.require (file "lab")
  let stateRewards ← files.find? (file "rew")
  let transitionRewards ← files.find? (file "trew")
  pure ⟨transitions, labels, stateRewards, transitionRewards⟩

/-- The files of a model are read where the paths of its stem lead to. -/
theorem modelTexts_eq_textsAt {stem : List Char}
    (h : ∀ new ≠ [], Path.withExtension stem new = common ++ '.' :: new) :
    files.modelTexts stem = files.textsAt common := by
  simp only [modelTexts, textsAt, h _ (show "tra".toList ≠ [] by decide),
    h _ (show "lab".toList ≠ [] by decide), h _ (show "rew".toList ≠ [] by decide),
    h _ (show "trew".toList ≠ [] by decide)]

/-- A stem with an extension of its own leads to the model without it. -/
theorem modelTexts_modelStem (hdirectory : Path.IsDirectory directory) (hname : name ≠ [])
    (hslash : '/' ∉ name) (hdot : Path.stem name ≠ ['.']) :
    files.modelTexts (modelStem (directory ++ (name ++ '.' :: "tra".toList))) =
      files.textsAt (directory ++ Path.stem name) := by
  refine modelTexts_eq_textsAt fun new hnew => ?_
  have hslash' : '/' ∉ name ++ '.' :: "tra".toList := by simp [hslash]
  rw [Path.withExtension_modelStem hdirectory hname hslash' (by decide) hnew, if_neg hdot,
    List.append_assoc]

/-- No file at all. -/
def missing : FileSystem := fun _ => .error .notFound

/-- Where no file exists, the error tells which path is looked at first. -/
theorem modelTexts_missing (stem : List Char) : missing.modelTexts stem =
    .error (.unreadable (Path.withExtension stem "tra".toList) FileError.notFound.message) :=
  rfl

theorem textsAt_missing (common : List Char) : missing.textsAt common =
    .error (.unreadable (common ++ '.' :: "tra".toList) FileError.notFound.message) :=
  rfl

/-- **The named file is read** exactly if no dot but a first one occurs in front of its extension.
The texts of the model are then those of the named file of transitions and of the files beside it
with the other extensions. Otherwise the last dot and what follows it are lost as well. -/
theorem load_modelStem {α : Type} [Weight α] [WeightText α]
    (hdirectory : Path.IsDirectory directory) (hname : name ≠ []) (hslash : '/' ∉ name) :
    ((∀ files : FileSystem,
        (files.load (modelStem (directory ++ (name ++ '.' :: "tra".toList))) :
          Except ModelError (Chain α)) =
        (do ModelTexts.read (← files.textsAt (directory ++ name)))) ↔
      '.' ∉ name.tail ∧ name ≠ ['.']) ∧
    (Path.stem name ≠ ['.'] → ∀ files : FileSystem,
      (files.load (modelStem (directory ++ (name ++ '.' :: "tra".toList))) :
        Except ModelError (Chain α)) =
      (do ModelTexts.read (← files.textsAt (directory ++ Path.stem name)))) := by
  have hread (hdot : Path.stem name ≠ ['.']) (files : FileSystem) :
      (files.load (modelStem (directory ++ (name ++ '.' :: "tra".toList))) :
        Except ModelError (Chain α)) =
      (do ModelTexts.read (← files.textsAt (directory ++ Path.stem name))) := by
    rw [load, modelTexts_modelStem hdirectory hname hslash hdot]
  refine ⟨⟨fun h => ?_, fun ⟨hdots, hdot⟩ files => ?_⟩, hread⟩
  · have hpath : Path.withExtension (modelStem (directory ++ (name ++ '.' :: "tra".toList)))
        "tra".toList = directory ++ name ++ '.' :: "tra".toList := by
      have hmissing := h missing
      rw [load, modelTexts_missing, textsAt_missing] at hmissing
      exact (ModelError.unreadable.inj (Except.error.inj hmissing)).1
    rw [Path.withExtension_modelStem hdirectory hname (by simp [hslash]) (by decide) (by decide),
      List.append_assoc] at hpath
    split at hpath
    case isTrue =>
      have hlength := congrArg List.length (List.append_cancel_left hpath)
      simp at hlength
    case isFalse hdot =>
      have hstem := List.append_cancel_right (List.append_cancel_left hpath)
      exact ⟨Path.not_mem_tail_of_stem_eq hstem, fun heq => hdot (hstem.trans heq)⟩
  · have hstem := Path.stem_eq_self hdots
    rw [hread (hstem.symm ▸ hdot), hstem]

/-- The model of `models/die.tra`, which has no other dot. -/
theorem load_modelStem_die :
    Path.IsDirectory "models/".toList ∧ "die".toList ≠ [] ∧ '/' ∉ "die".toList ∧
      ∀ files : FileSystem,
        (files.load (modelStem "models/die.tra".toList) : Except ModelError (Chain ℚ)) =
          (do ModelTexts.read (← files.textsAt "models/die".toList)) := by
  have hdirectory : Path.IsDirectory "models/".toList := .inr ⟨"models".toList, by decide⟩
  have hname : "die".toList ≠ [] := by decide
  have hslash : '/' ∉ "die".toList := by decide
  exact ⟨hdirectory, hname, hslash, (load_modelStem hdirectory hname hslash).1.2 (by decide)⟩

/-- Every path is that of a file, whose text is the path. -/
def echo : FileSystem := fun path => .ok path

/-- A version number in front of the extension: the texts of another model are read. -/
theorem modelTexts_versioned :
    echo.modelTexts (modelStem "m.v2.tra".toList) = .ok ⟨"m.tra".toList, "m.lab".toList,
        some "m.rew".toList, some "m.trew".toList⟩ ∧
      echo.modelTexts (modelStem "m.v2.tra".toList) ≠ echo.textsAt "m.v2".toList := by
  have hread : echo.modelTexts (modelStem "m.v2.tra".toList) = .ok ⟨"m.tra".toList,
      "m.lab".toList, some "m.rew".toList, some "m.trew".toList⟩ := by cbv
  have hnamed : echo.textsAt "m.v2".toList = .ok ⟨"m.v2.tra".toList, "m.v2.lab".toList,
      some "m.v2.rew".toList, some "m.v2.trew".toList⟩ := by rfl
  refine ⟨hread, fun heq => ?_⟩
  rw [hread, hnamed] at heq
  have htransitions := (ModelTexts.mk.inj (Except.ok.inj heq)).1
  revert htransitions
  decide

end FileSystem

end MarkovElimination
