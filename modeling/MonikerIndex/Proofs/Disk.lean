import MonikerIndex.Disk
import MonikerIndex.Proofs.Outcome

/-!
# Reading what was written

A file that was written can be read, at the same path and with the same text. Writing never removes
a directory, so the path still leads to the place where the text was put.
-/

namespace MonikerIndex

namespace Directory

variable {directory directory' : Directory} {path text : String}

/-! ### Putting a file into a directory -/

theorem map_fst_put (directory : Directory) (place : List String) (text : String) :
    directory.files.map Prod.fst <+: (directory.put place text).files.map Prod.fst := by
  unfold put
  split
  · simp [Function.comp_def]
  · simp

theorem isFolder_put {folder : List String} (h : directory.isFolder folder = true)
    (place : List String) (text : String) :
    (directory.put place text).isFolder folder = true := by
  have hany (other : Directory) : (other.files.any fun entry =>
      folder.isPrefixOf entry.1 && folder.length < entry.1.length) =
        (other.files.map Prod.fst).any fun file =>
          folder.isPrefixOf file && folder.length < file.length := by
    rw [List.any_map]
    rfl
  simp only [isFolder, hany, Bool.or_eq_true] at h ⊢
  refine h.imp id fun h => ?_
  rw [List.any_eq_true] at h ⊢
  obtain ⟨file, hfile, hinside⟩ := h
  exact ⟨file, (map_fst_put directory place text).subset hfile, hinside⟩

/-- The text under a name that is there, after every entry of that name has got it. -/
theorem lookup_map_replace {place : List String} {files : List (List String × String)}
    (h : files.any (·.1 == place) = true) (text : String) :
    (files.map fun (other, old) => (other, if other == place then text else old)).lookup place =
      some text := by
  induction files with
  | nil => cases h
  | cons entry files ih =>
    by_cases heq : entry.1 = place
    · simp [heq]
    · have hne : (place == entry.1) = false := by simpa using Ne.symm heq
      have hrest : files.any (·.1 == place) = true := by simpa [heq] using h
      simpa [List.lookup_cons, hne] using ih hrest

theorem lookup_put (directory : Directory) (place : List String) (text : String) :
    (directory.put place text).files.lookup place = some text := by
  by_cases hany : directory.files.any (·.1 == place) = true
  · rw [put, if_pos hany]
    exact lookup_map_replace hany text
  · have hnone : directory.files.lookup place = none := by
      rw [List.lookup_eq_none_iff]
      intro entry hentry
      by_contra heq
      have hsame : (entry.1 == place) = true := by
        rw [BEq.comm]
        simpa using heq
      exact hany (List.any_eq_true.mpr ⟨entry, hentry, hsame⟩)
    rw [put, if_neg hany, List.lookup_append, hnone]
    simp

/-! ### Paths -/

theorem enter_put {folder folder' : List String} {part : String}
    (h : directory.enter folder part = .ok folder') (place : List String) (text : String) :
    (directory.put place text).enter folder part = .ok folder' := by
  unfold enter at h ⊢
  split_ifs at h with hdot hup hlong hfolder hfile
  · rw [if_pos hdot, h]
  · rw [if_neg hdot, if_pos hup, h]
  · rw [if_neg hdot, if_neg hup, if_neg hlong, if_pos (isFolder_put hfolder place text), h]

theorem foldlM_enter_put {folder folder' : List String} {parts : List String}
    (h : parts.foldlM directory.enter folder = .ok folder') (place : List String) (text : String) :
    parts.foldlM (directory.put place text).enter folder = .ok folder' := by
  induction parts generalizing folder with
  | nil => exact h
  | cons part parts ih =>
    rw [List.foldlM_cons] at h ⊢
    obtain ⟨next, hnext, h⟩ := bind_eq_ok_iff.mp h
    exact bind_eq_ok_iff.mpr ⟨next, enter_put hnext place text, ih h⟩

theorem locate_put {found : Option (List String)} (h : directory.locate path = .ok found)
    (place : List String) (text : String) :
    (directory.put place text).locate path = .ok found := by
  obtain ⟨folder, hfolder, h⟩ := bind_eq_ok_iff.mp h
  refine bind_eq_ok_iff.mpr ⟨folder, ?_, h⟩
  unfold follow at hfolder ⊢
  split_ifs at hfolder with hnul hlong
  rw [if_neg hnul, if_neg hlong]
  exact foldlM_enter_put hfolder place text

/-! ### Access -/

/-- A successful write puts the text at the place that the path names. -/
theorem exists_place_of_write (h : directory.write path text = .ok directory') :
    ∃ place, directory.locate path = .ok (some place) ∧ directory' = directory.put place text := by
  by_cases hslash : path.toList.getLast? = some '/'
  · rw [write, if_pos hslash] at h
    obtain ⟨_, _, h⟩ := bind_eq_ok_iff.mp h
    cases h
  · rw [write, if_neg hslash] at h
    obtain ⟨found, hfound, h⟩ := bind_eq_ok_iff.mp h
    cases found with
    | none => cases h
    | some place =>
      refine ⟨place, hfound, ?_⟩
      dsimp only at h
      split at h
      · cases h
      · exact (Except.ok.inj h).symm
      · exact (Except.ok.inj h).symm

theorem find_of_write (h : directory.write path text = .ok directory') :
    directory'.find path = .ok (.file text) := by
  obtain ⟨place, hplace, rfl⟩ := exists_place_of_write h
  have hlook : (directory.put place text).look place = .file text := by
    rw [look, lookup_put]
  rw [find, locate_put hplace, ← hlook]
  rfl

theorem read_of_write (h : directory.write path text = .ok directory') :
    directory'.read path = .ok text := by
  rw [read, find_of_write h]
  rfl

theorem isPresent_of_write (h : directory.write path text = .ok directory') :
    directory'.isPresent path = true := by
  rw [isPresent, find_of_write h]

/-! ### A directory as a state -/

theorem run_bind {α β : Type} (first : StateM Directory α) (next : α → StateM Directory β)
    (directory : Directory) :
    (first >>= next).run directory = (next (first.run directory).1).run (first.run directory).2 :=
  rfl

theorem run_get (directory : Directory) :
    (get : StateM Directory Directory).run directory = (directory, directory) :=
  rfl

theorem run_isPresent (directory : Directory) (path : String) :
    (disk.isPresent path).run directory = (directory.isPresent path, directory) :=
  rfl

theorem run_read (directory : Directory) (path : String) :
    (disk.read path).run directory = (directory.read path, directory) :=
  rfl

theorem run_write_of_ok (h : directory.write path text = .ok directory') :
    (disk.write path text).run directory = (.ok (), directory') := by
  simp only [disk, run_bind, run_get, h]
  rfl

theorem run_write_of_error {cause : FileError} (h : directory.write path text = .error cause) :
    (disk.write path text).run directory = (.error cause, directory) := by
  simp only [disk, run_bind, run_get, h]
  rfl

end Directory

end MonikerIndex
