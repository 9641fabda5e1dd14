import ToolCatalog.Proofs.Storage.Rewrites
import ToolCatalog.Storage.Manifest

/-!
# Where manifests are written

The path of a manifest ends in a name, whatever the output it stands beside is called. So
a manifest that is written is read at its own path, and stays there as long as nothing
else is written to the same place.
-/

namespace ToolCatalog

namespace Path

theorem parts_append (t u : List Char) : parts (t ++ '/' :: u) = parts t ++ parts u := by
  induction t with
  | nil => simp only [List.nil_append, parts, ↓reduceIte, List.singleton_append]
  | cons c t ih =>
    rw [List.cons_append, parts, parts, ih]
    split
    · rfl
    · cases h : parts t with
      | nil => exact absurd h (parts_ne_nil t)
      | cons p ps => rfl

theorem getLast?_parts_append {t p : List Char} (h : '/' ∉ p) :
    (parts (t ++ '/' :: p)).getLast? = some p := by
  rw [parts_append, parts_of_notMem h, List.getLast?_concat]

theorem getLast?_parts_join (left : String) {name : String} (h : '/' ∉ name.toList) :
    (parts (join left name).toList).getLast? = some name.toList := by
  have habsolute : isAbsolute name = false := by
    refine beq_eq_false_iff_ne.2 fun hhead => h ?_
    obtain ⟨t, ht⟩ := List.head?_eq_some_iff.1 hhead
    rw [ht]
    exact List.mem_cons_self
  rw [join, habsolute]
  simp only [Bool.false_eq_true, ↓reduceIte]
  split
  · rw [parts_of_notMem h]
    rfl
  · next c hlast =>
    split
    · next hslash =>
      obtain ⟨t, ht⟩ := List.getLast?_eq_some_iff.1 hlast
      rw [beq_iff_eq.1 hslash] at ht
      rw [String.toList_append, ht, List.append_assoc, List.singleton_append]
      exact getLast?_parts_append h
    · rw [String.toList_append, String.toList_append, List.append_assoc]
      exact getLast?_parts_append h

theorem notMem_fileName {path name : String} (h : fileName? path = some name) :
    '/' ∉ name.toList := by
  rw [fileName?] at h
  split at h
  · cases h
  · next p hlast =>
    split at h
    · cases h
    · obtain rfl := Option.some.inj h
      rw [String.toList_ofList]
      exact notMem_of_mem_parts ((trimIdle_isPrefix _).subset (List.mem_of_getLast? hlast))

theorem notMem_stemOf {name : String} (h : '/' ∉ name.toList) : '/' ∉ (stemOf name).toList := by
  rw [stemOf]
  split
  · exact h
  · rw [String.toList_ofList]
    intro hmem
    have hmem := List.mem_of_mem_drop (List.mem_reverse.1 hmem)
    exact h (List.mem_reverse.1 ((List.dropWhile_sublist _).subset hmem))

theorem endsInName_of_getLast? {path name : String}
    (h : (parts path.toList).getLast? = some name.toList) (hname : isIdle name.toList = false) :
    endsInName path = true := by
  rw [endsInName, h, Option.any_some, hname]
  rfl

theorem fileName?_of_getLast? {path name : String}
    (h : (parts path.toList).getLast? = some name.toList) (hname : isIdle name.toList = false)
    (hup : name ≠ "..") : fileName? path = some name := by
  obtain ⟨above, habove⟩ := List.getLast?_eq_some_iff.1 (getLast?_parts_splitStart h hname)
  have hne : name.toList ≠ ['.', '.'] := fun hdots => hup (String.toList_inj.1 hdots)
  rw [fileName?, habove, trimIdle_append_live above hname, List.getLast?_concat]
  simp only [if_neg hne, String.ofList_toList]

end Path

open ToolCatalog.Path FileTree

theorem FileTree.read_save_of_target?_ne {t : FileTree} {path other name text : String} {j : Json}
    (h : endsInName path = true) (hname : fileName? path = some name)
    (hread : t.read path = .text text) (hne : target? other ≠ target? path) :
    (t.save other j).files.read path = .text text := by
  refine read_save_of_apart hread fun p hreach htarget => hne ?_
  rw [htarget, target?_of_endsInName h hname, reach_place hreach]

namespace Manifest

def placeFor? (output : String) : Option Place := target? (pathFor output)

def fileNameFor (output : String) : String := (fileStem? output).getD "" ++ ".manifest.json"

theorem fileNameFor_toList (output : String) : ∃ stem : List Char, '/' ∉ stem ∧
    (fileNameFor output).toList = stem ++ ".manifest.json".toList := by
  refine ⟨((fileStem? output).getD "").toList, ?_, String.toList_append⟩
  rw [fileStem?]
  cases hname : fileName? output with
  | none => exact List.not_mem_nil
  | some name => exact notMem_stemOf (notMem_fileName hname)

theorem notMem_fileNameFor (output : String) : '/' ∉ (fileNameFor output).toList := by
  obtain ⟨stem, hstem, hname⟩ := fileNameFor_toList output
  rw [hname, List.mem_append]
  exact fun hmem => hmem.elim hstem (by decide)

theorem length_fileNameFor (output : String) : 14 ≤ (fileNameFor output).toList.length := by
  obtain ⟨stem, _, hname⟩ := fileNameFor_toList output
  have hsuffix : ".manifest.json".toList.length = 14 := by decide
  rw [hname, List.length_append, hsuffix]
  omega

theorem getLast?_pathFor (output : String) :
    (parts (pathFor output).toList).getLast? = some (fileNameFor output).toList := by
  have hname := notMem_fileNameFor output
  rw [pathFor, withFileName]
  cases fileName? output with
  | none => exact getLast?_parts_join output hname
  | some _ => exact getLast?_parts_join _ hname

theorem isIdle_fileNameFor (output : String) : isIdle (fileNameFor output).toList = false := by
  have hlength := length_fileNameFor output
  rw [isIdle, Bool.or_eq_false_iff, beq_eq_false_iff_ne, beq_eq_false_iff_ne]
  constructor
  · intro hnil
    rw [hnil] at hlength
    cases hlength
  · intro hdot
    rw [hdot] at hlength
    exact absurd hlength (by decide)

theorem endsInName_pathFor (output : String) : endsInName (pathFor output) = true :=
  endsInName_of_getLast? (getLast?_pathFor output) (isIdle_fileNameFor output)

theorem fileName?_pathFor (output : String) :
    fileName? (pathFor output) = some (fileNameFor output) := by
  refine fileName?_of_getLast? (getLast?_pathFor output) (isIdle_fileNameFor output) fun hup => ?_
  have hlength := length_fileNameFor output
  rw [hup] at hlength
  exact absurd hlength (by decide)

theorem read_save {t : FileTree} {output : String} {j : Json}
    (h : (t.save (pathFor output) j).outcome = .ok ())
    (husable : isUsable (pathFor output) = true) :
    (t.save (pathFor output) j).files.read (pathFor output) = .text j.pretty :=
  FileTree.read_save h (endsInName_pathFor output) husable

theorem read_save_of_placeFor?_ne {t : FileTree} {output other text : String} {j : Json}
    (hread : t.read (pathFor output) = .text text) (hne : target? other ≠ placeFor? output) :
    (t.save other j).files.read (pathFor output) = .text text :=
  read_save_of_target?_ne (endsInName_pathFor output) (fileName?_pathFor output) hread hne

end Manifest

end ToolCatalog
