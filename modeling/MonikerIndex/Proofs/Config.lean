import MonikerIndex.Config.File
import MonikerIndex.Proofs.Disk
import MonikerIndex.Proofs.Toml

/-!
# Loading settings that were saved

The file of some settings has a line for each of them that is present, in a fixed order. Reading it
gives the settings back (`parse_render_of_simple`) if their texts have a written form without
escapes. A file that was saved is there and has that text, so loading it gives the settings back as
well, and it is not replaced unless this is asked for.
-/

namespace MonikerIndex.Config

/-! ### The lines of a settings file -/

/-- The keys of a settings file in their order, with what they are set to. -/
def fields (config : Config) : List (String × Option String) :=
  [("scheme", config.scheme), ("language_id", config.languageId),
    ("format", config.format.map OutputFormat.word), ("root", config.root)]

theorem nodup_fields (config : Config) : (config.fields.map Prod.fst).Nodup := by
  change ["scheme", "language_id", "format", "root"].Nodup
  decide

theorem bare_of_mem_fields {config : Config} {field : String × Option String}
    (h : field ∈ config.fields) : Toml.Bare field.1.toList := by
  simp only [fields, List.mem_cons, List.not_mem_nil, or_false] at h
  rcases h with rfl | rfl | rfl | rfl
  all_goals
    dsimp only
    decide

/-- The keys that have a text. -/
def present (fields : List (String × Option String)) : List (String × String) :=
  fields.filterMap fun field => field.2.map (field.1, ·)

variable {config : Config} {fields : List (String × Option String)}

theorem flatMap_entry (fields : List (String × Option String)) :
    (fields.flatMap fun field => entry field.1 field.2) =
      (present fields).flatMap Toml.written := by
  induction fields with
  | nil => rfl
  | cons field fields ih =>
    obtain ⟨key, value⟩ := field
    rw [List.flatMap_cons, ih]
    cases value with
    | none => rfl
    | some text => rfl

theorem render_eq (config : Config) :
    config.render = String.ofList ((present config.fields).flatMap Toml.written) := by
  rw [← flatMap_entry, render]
  simp [Config.fields]

theorem mem_of_mem_present {setting : String × String} (h : setting ∈ present fields) :
    (setting.1, some setting.2) ∈ fields := by
  obtain ⟨field, hfield, hsetting⟩ := List.mem_filterMap.mp h
  obtain ⟨text, htext, rfl⟩ := Option.map_eq_some_iff.mp hsetting
  rw [← htext]
  exact hfield

theorem map_fst_present (fields : List (String × Option String)) :
    ((present fields).map Prod.fst).Sublist (fields.map Prod.fst) := by
  induction fields with
  | nil => exact .slnil
  | cons field fields ih =>
    obtain ⟨key, value⟩ := field
    cases value with
    | none => exact ih.cons key
    | some text => exact ih.cons_cons key

theorem lookup_present_of_notMem {key : String} (h : key ∉ fields.map Prod.fst) :
    (present fields).lookup key = none := by
  rw [List.lookup_eq_none_iff]
  intro setting hsetting
  have hmem := (map_fst_present fields).subset (List.mem_map_of_mem hsetting)
  have hne : key ≠ setting.1 := by
    rintro rfl
    exact h hmem
  simpa using hne

theorem lookup_present {key : String} {value : Option String}
    (hnodup : (fields.map Prod.fst).Nodup) (h : (key, value) ∈ fields) :
    (present fields).lookup key = value := by
  induction fields with
  | nil => cases h
  | cons field fields ih =>
    rw [List.map_cons, List.nodup_cons] at hnodup
    obtain ⟨other, other'⟩ := field
    rcases List.mem_cons.mp h with heq | hrest
    · obtain ⟨rfl, rfl⟩ := Prod.mk.inj heq
      cases value with
      | none =>
        change (present fields).lookup key = none
        exact lookup_present_of_notMem hnodup.1
      | some text => exact List.lookup_cons_self
    · have hne : key ≠ other := by
        rintro rfl
        exact hnodup.1 (List.mem_map.mpr ⟨_, hrest, rfl⟩)
      cases other' with
      | none => exact ih hnodup.2 hrest
      | some text =>
        change List.lookup key ((other, text) :: present fields) = value
        rw [List.lookup_cons, beq_false_of_ne hne]
        exact ih hnodup.2 hrest

theorem lookup_map_text (settings : List (String × String)) (key : String) :
    (settings.map fun setting => (setting.1, Toml.text setting.2)).lookup key =
      (settings.lookup key).map .text := by
  induction settings with
  | nil => rfl
  | cons setting settings ih =>
    rw [List.map_cons, List.lookup_cons, List.lookup_cons, ih]
    split
    · rfl
    · rfl

/-! ### Reading the lines -/

/-- Whether all texts of the settings have a written form on one line without escapes. -/
structure Simple (config : Config) : Prop where
  scheme : ∀ text ∈ config.scheme, Toml.Simple text.toList
  languageId : ∀ text ∈ config.languageId, Toml.Simple text.toList
  root : ∀ text ∈ config.root, Toml.Simple text.toList

theorem simple_word (format : OutputFormat) : Toml.Simple format.word.toList := by
  cases format with
  | line => decide
  | json => decide

theorem Simple.of_mem_fields (h : config.Simple) {key text : String}
    (hmem : (key, some text) ∈ config.fields) : Toml.Simple text.toList := by
  simp only [Config.fields, List.mem_cons, List.not_mem_nil, or_false, Prod.mk.injEq] at hmem
  rcases hmem with ⟨-, hmem⟩ | ⟨-, hmem⟩ | ⟨-, hmem⟩ | ⟨-, hmem⟩
  · exact h.scheme text hmem.symm
  · exact h.languageId text hmem.symm
  · obtain ⟨format, -, rfl⟩ := Option.map_eq_some_iff.mp hmem.symm
    exact simple_word format
  · exact h.root text hmem.symm

theorem text?_of_lookup {members : Toml.Members} {key : String} {value : Option String}
    (h : members.lookup key = value.map .text) : text? members key = some value := by
  rw [text?, h]
  cases value with
  | none => rfl
  | some text => rfl

theorem format?_of_lookup {members : Toml.Members} {key : String} {format : Option OutputFormat}
    (h : members.lookup key = (format.map OutputFormat.word).map .text) :
    format? members key = some format := by
  rw [format?, h]
  rcases format with _ | _ | _
  · rfl
  · rfl
  · rfl

/-- The text of some settings is read as these settings. -/
theorem parse_render_of_simple (h : config.Simple) : parse config.render = some config := by
  have hkeys (setting : String × String) (hsetting : setting ∈ present config.fields) :
      Toml.Bare setting.1.toList :=
    bare_of_mem_fields (mem_of_mem_present hsetting)
  have htexts (setting : String × String) (hsetting : setting ∈ present config.fields) :
      Toml.Simple setting.2.toList :=
    h.of_mem_fields (mem_of_mem_present hsetting)
  have hmembers := Toml.parse_written hkeys htexts
    ((map_fst_present config.fields).nodup config.nodup_fields)
  have hlookup {key : String} {value : Option String} (hfield : (key, value) ∈ config.fields) :
      ((present config.fields).map fun setting => (setting.1, Toml.text setting.2)).lookup key =
        value.map .text := by
    rw [lookup_map_text, lookup_present config.nodup_fields hfield]
  rw [← render_eq] at hmembers
  have hscheme := text?_of_lookup (hlookup (.head _))
  have hlanguage := text?_of_lookup (hlookup (.tail _ (.head _)))
  have hformat := format?_of_lookup (hlookup (.tail _ (.tail _ (.head _))))
  have hroot := text?_of_lookup (hlookup (.tail _ (.tail _ (.tail _ (.head _)))))
  rw [parse, hmembers]
  simp only [Option.bind_eq_bind, Option.bind_some, hscheme, hlanguage, hformat, hroot]
  rfl

/-! ### Files -/

variable {directory directory' : Directory} {path : String} {force : Bool}

theorem run_save_of_isPresent (h : directory.isPresent path = true) (config : Config) :
    (config.save Directory.disk path false).run directory =
      (.error (.taken path), directory) := by
  rw [save, Directory.run_bind, Directory.run_isPresent, h]
  rfl

theorem run_save_eq_ok_iff :
    (config.save Directory.disk path force).run directory = (.ok (), directory') ↔
      (directory.isPresent path = true → force = true) ∧
        directory.write path config.render = .ok directory' := by
  rw [save, Directory.run_bind, Directory.run_isPresent]
  dsimp only
  split_ifs with hkept
  · rw [Bool.and_eq_true, Bool.not_eq_true'] at hkept
    constructor
    · intro h
      cases h
    · rintro ⟨hforce, -⟩
      rw [hforce hkept.1] at hkept
      cases hkept.2
  · have hforce : directory.isPresent path = true → force = true := by
      intro hpresent
      simpa [hpresent] using hkept
    rw [Directory.run_bind]
    cases hwrite : directory.write path config.render with
    | error cause =>
      rw [Directory.run_write_of_error hwrite]
      constructor
      · intro h
        cases h
      · rintro ⟨-, h⟩
        cases h
    | ok after =>
      rw [Directory.run_write_of_ok hwrite]
      constructor
      · intro h
        cases h
        exact ⟨hforce, rfl⟩
      · rintro ⟨-, h⟩
        cases h
        rfl

theorem run_load_of_write (h : directory.write path config.render = .ok directory')
    (hparse : parse config.render = some config) :
    (load Directory.disk path).run directory' = (.ok (some config), directory') := by
  rw [load, Directory.run_bind, Directory.run_isPresent, Directory.isPresent_of_write h]
  change (Directory.disk.read path >>= _).run directory' = _
  rw [Directory.run_bind, Directory.run_read, Directory.read_of_write h]
  dsimp only
  rw [hparse]
  rfl

/-- Settings are saved if the file can be written, and if nothing is there yet or replacing it is
    asked for. What was saved is loaded again as it was. What must not be replaced stays as it is,
    and this is reported. -/
theorem load_save (path : String) (directory : Directory) (config : Config) :
    (∀ (force : Bool) (directory' : Directory),
      (config.save Directory.disk path force).run directory = (.ok (), directory') ↔
        (directory.isPresent path = true → force = true) ∧
          directory.write path config.render = .ok directory') ∧
      (config.Simple → ∀ (force : Bool) (directory' : Directory),
        (config.save Directory.disk path force).run directory = (.ok (), directory') →
          (load Directory.disk path).run directory' = (.ok (some config), directory')) ∧
      (directory.isPresent path = true →
        (config.save Directory.disk path false).run directory =
          (.error (.taken path), directory)) := by
  refine ⟨?_, ?_, ?_⟩
  · intro force directory'
    exact run_save_eq_ok_iff
  · intro hsimple force directory' hsave
    obtain ⟨-, hwrite⟩ := run_save_eq_ok_iff.mp hsave
    exact run_load_of_write hwrite (parse_render_of_simple hsimple)
  · intro hpresent
    exact run_save_of_isPresent hpresent config

/-- Settings with a root that needs apostrophes around it, with a scheme that must not have them,
    and with no language. -/
def windows : Config where
  scheme := some "it's #1 = [npm]"
  format := some .json
  root := some "C:\\src\\\"new\" "

/-- The directory `conf` with these settings in a file. -/
def windowsFolder : Directory :=
  ⟨[(["conf", "old"], ""), (["conf", "moniker.toml"], windows.render)]⟩

theorem load_save_windows :
    windows.Simple ∧
      (windows.save Directory.disk "conf/moniker.toml" false).run ⟨[(["conf", "old"], "")]⟩ =
        (.ok (), windowsFolder) ∧
      (load Directory.disk "conf/moniker.toml").run windowsFolder =
        (.ok (some windows), windowsFolder) ∧
      (starter.save Directory.disk "conf/moniker.toml" false).run windowsFolder =
        (.error (.taken "conf/moniker.toml"), windowsFolder) := by
  have hsimple : windows.Simple := by
    refine ⟨?_, ?_, ?_⟩
    · rintro _ ⟨⟩
      decide
    · rintro _ ⟨⟩
    · rintro _ ⟨⟩
      decide
  have hsave :
      (windows.save Directory.disk "conf/moniker.toml" false).run ⟨[(["conf", "old"], "")]⟩ =
        (.ok (), windowsFolder) := rfl
  exact ⟨hsimple, hsave, (load_save _ _ windows).2.1 hsimple false windowsFolder hsave,
    (load_save _ windowsFolder starter).2.2 rfl⟩

end MonikerIndex.Config
