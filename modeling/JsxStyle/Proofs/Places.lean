import JsxStyle.Cli.Directory
import JsxStyle.Proofs.Shape

/-!
# Files and folders after a change

A path is followed from folder to folder, and no change takes a folder away.  So
where a path leads stays the same, and what it names changes only where something
is written.

* `Directory.Keeps`: what a change leaves as it was, apart from some places;
* `Directory.keeps_put`: what writing a file leaves as it was;
* `Directory.makeFolders_spec`: what making folders does;
* `Directory.resolve_join`: where the path of a name inside a folder leads.
-/

namespace JsxStyle

namespace Path

open Ascii

/-- A text that names something inside a directory. -/
structure IsName (name : Text) : Prop where
  ne_nil : name ≠ []
  slash_not_mem : slash ∉ name
  ne_dot : name ≠ [dot]
  ne_dots : name ≠ [dot, dot]

variable {name : Text}

instance (name : Text) : Decidable (IsName name) :=
  decidable_of_iff (name ≠ [] ∧ slash ∉ name ∧ name ≠ [dot] ∧ name ≠ [dot, dot])
    ⟨fun h => ⟨h.1, h.2.1, h.2.2.1, h.2.2.2⟩, fun h => ⟨h.1, h.2, h.3, h.4⟩⟩

/-- A file name does not begin with a slash. -/
theorem IsName.head?_ne (h : IsName name) : name.head? ≠ some slash :=
  fun hhead => h.slash_not_mem (List.mem_of_mem_head? hhead)

/-- A file name is one step, down to that name. -/
theorem IsName.pieces_eq (h : IsName name) :
    (Text.pieces slash name).filterMap step? = [.name name] := by
  rw [Text.pieces_of_not_mem h.slash_not_mem]
  simp [step?, h.ne_nil, h.ne_dot, h.ne_dots]

/-- Joining a name to a directory adds one step at the end. -/
theorem steps_join (directory : Text) (h : IsName name) :
    steps (join directory name) = steps directory ++ [.name name] := by
  unfold join
  rw [if_neg h.head?_ne]
  split
  case isTrue hdirectory =>
    rcases directory.eq_nil_or_concat with rfl | ⟨above, last, rfl⟩
    · simp [steps, h.head?_ne, h.pieces_eq, Text.pieces, step?]
    · rw [List.concat_eq_append] at hdirectory ⊢
      obtain rfl : last = slash := by simpa using hdirectory
      -- The slash at the end stands for no step.
      have hempty : (Text.pieces slash []).filterMap step? = [] := rfl
      have hhead : ((above ++ [slash]) ++ name).head? = (above ++ [slash]).head? := by simp
      rw [steps, steps, hhead, List.append_assoc, List.singleton_append, Text.pieces_append,
        Text.pieces_append, List.filterMap_append, List.filterMap_append, h.pieces_eq, hempty,
        List.append_nil, List.append_assoc]
  case isFalse hdirectory =>
    obtain ⟨b, rest, rfl⟩ : ∃ b rest, directory = b :: rest :=
      List.exists_cons_of_ne_nil fun hnil => hdirectory (Or.inl (by simp [hnil]))
    rw [steps, steps, Text.pieces_append, List.filterMap_append, h.pieces_eq, List.append_assoc]
    rfl

/-- A path that ends in a name does not end in a slash. -/
theorem endsWithSlash_join (directory : Text) (h : IsName name) :
    endsWithSlash (join directory name) = false := by
  obtain ⟨last, hlast⟩ : ∃ last, name.getLast? = some last :=
    Option.isSome_iff_exists.mp (by simp [h.ne_nil])
  have hslash : last ≠ slash := fun hsame => h.slash_not_mem (hsame ▸ List.mem_of_getLast? hlast)
  unfold join endsWithSlash
  rw [if_neg h.head?_ne]
  split <;> simp [List.getLast?_append, List.getLast?_cons, hlast, hslash]

end Path

namespace Cli

namespace Directory

variable {d d' d'' : Directory} {names : List Text} {path : Text} {written : List (List Text)}

/-- The root is a folder. -/
theorem ne_nil_of_not_folder (h : d.entry? names ≠ some .folder) : names ≠ [] := by
  rintro rfl
  exact h rfl

/-- What is put at a place is found there, and elsewhere what was there. -/
theorem entry_put (d : Directory) {names : List Text} (e : Entry) (h : names ≠ [])
    (names' : List Text) :
    Directory.entry? (d.put names e) names' =
      if names' = names then some e else d.entry? names' := by
  have hfilter (l : List (List Text × Entry)) : (l.filter (·.1 ≠ names)).lookup names' =
      if names' = names then none else l.lookup names' := by
    induction l with
    | nil => simp
    | cons entry rest ih =>
      obtain ⟨key, e'⟩ := entry
      by_cases hkey : key = names
      · rw [List.filter_cons_of_neg (by simpa using hkey), ih, List.lookup_cons]
        by_cases hsame : names' = names
        · rw [if_pos hsame, if_pos hsame]
        · rw [if_neg hsame, if_neg hsame, beq_eq_false_iff_ne.mpr (hkey ▸ hsame)]
      · rw [List.filter_cons_of_pos (by simpa using hkey), List.lookup_cons, List.lookup_cons, ih]
        by_cases hsame : names' = key
        · subst hsame
          simp [hkey]
        · rw [beq_eq_false_iff_ne.mpr hsame]
  unfold entry? put
  rw [List.lookup_append, hfilter]
  by_cases hsame : names' = names
  · simp [hsame, h]
  · simp [hsame, List.lookup_cons, beq_eq_false_iff_ne.mpr hsame]

/-- Everything is left as it was, apart from what is not a folder at the places `written`. -/
structure Keeps (written : List (List Text)) (d d' : Directory) : Prop where
  home_eq : d'.home = d.home
  entry_eq : ∀ {names : List Text} {e : Entry}, d.entry? names = some e →
    e = .folder ∨ names ∉ written → d'.entry? names = some e

namespace Keeps

theorem refl (d : Directory) : Keeps written d d :=
  ⟨rfl, fun h _ => h⟩

theorem trans (h : Keeps written d d') (h' : Keeps written d' d'') : Keeps written d d'' :=
  ⟨h'.home_eq.trans h.home_eq, fun he hwritten => h'.entry_eq (h.entry_eq he hwritten) hwritten⟩

theorem mono {more : List (List Text)} (h : Keeps written d d')
    (hmore : ∀ names ∈ written, names ∈ more) : Keeps more d d' :=
  ⟨h.home_eq, fun he hwritten =>
    h.entry_eq he (hwritten.imp_right fun hnot hmem => hnot (hmore _ hmem))⟩

/-- A walk through folders leads where it did. -/
theorem walk_eq (h : Keeps written d d') {steps : List Path.Component} {names last : List Text}
    (hwalk : d.walk names steps = .ok last) : d'.walk names steps = .ok last := by
  induction steps generalizing names with
  | nil => exact hwalk
  | cons step rest ih =>
    rw [walk] at hwalk ⊢
    cases hentry : d.entry? names with
    | none => simp [hentry] at hwalk
    | some entry =>
      rw [hentry] at hwalk
      cases entry with
      | file content => exact absurd hwalk (by simp)
      | folder =>
        rw [h.entry_eq hentry (Or.inl rfl)]
        exact ih hwalk

/-- A path that leads somewhere leads there still. -/
theorem resolve_eq (h : Keeps written d d') (hresolve : d.resolve path = .ok names) :
    d'.resolve path = .ok names := by
  rw [resolve, h.home_eq]
  exact h.walk_eq hresolve

end Keeps

/-- Writing a file keeps all else. -/
theorem keeps_put (e : Entry) (h : d.entry? names ≠ some .folder) :
    Keeps [names] d (d.put names e) := by
  have hne := ne_nil_of_not_folder h
  refine ⟨rfl, fun {names' e'} he hwritten => ?_⟩
  rw [entry_put d e hne]
  split
  case isTrue hsame =>
    subst hsame
    rcases hwritten with rfl | hwritten
    · exact absurd he h
    · exact absurd (List.mem_singleton_self _) hwritten
  case isFalse => exact he

/-- What is put where nothing was changes nothing that was there. -/
theorem keeps_put_of_none (e : Entry) (h : d.entry? names = none) :
    Keeps [] d (d.put names e) := by
  have hkeeps : Keeps [names] d (d.put names e) := keeps_put e (by simp [h])
  refine ⟨rfl, fun {names' e'} he _ => hkeeps.entry_eq he (Or.inr fun hmem => ?_)⟩
  rw [List.mem_singleton.mp hmem, h] at he
  exact absurd he (by simp)

/-- A file is read where the path leads to one and does not end in a slash. -/
theorem readFile_eq_ok {content : List Byte} : d.readFile path = .ok content ↔
    ∃ names, d.resolve path = .ok names ∧ d.entry? names = some (.file content) ∧
      Path.endsWithSlash path = false := by
  unfold readFile find
  cases d.resolve path with
  | error e => simp [Bind.bind, Except.bind]
  | ok names =>
    simp only [Bind.bind, Except.bind, Except.ok.injEq, exists_eq_left']
    rcases d.entry? names with _ | ⟨content'⟩ | _
    · simp
    · cases Path.endsWithSlash path <;> simp
    · simp

/-- A file that nothing was written to reads as before. -/
theorem Keeps.readFile_eq {content : List Byte} (h : Keeps written d d')
    (hread : d.readFile path = .ok content)
    (hwritten : ∀ names, d.resolve path = .ok names → names ∉ written) :
    d'.readFile path = .ok content := by
  obtain ⟨names, hresolve, hentry, hslash⟩ := readFile_eq_ok.mp hread
  exact readFile_eq_ok.mpr ⟨names, h.resolve_eq hresolve,
    h.entry_eq hentry (Or.inr (hwritten names hresolve)), hslash⟩

/-- A path that leads to where a file can be written. -/
structure Writable (d : Directory) (path : Text) (names : List Text) : Prop where
  resolve_eq : d.resolve path = .ok names
  not_folder : d.entry? names ≠ some .folder
  no_slash : Path.endsWithSlash path = false

/-- Writing where a file can be written puts the content there. -/
theorem writeFile_eq (h : d.Writable path names) (content : List Byte) :
    d.writeFile path content = .ok (d.put names (.file content)) := by
  simp [writeFile, h.resolve_eq, h.not_folder, h.no_slash, Bind.bind, Except.bind]

/-- What was written to a path is read from it. -/
theorem readFile_put (h : d.Writable path names) (content : List Byte) :
    (d.put names (.file content)).readFile path = .ok content := by
  have hne := ne_nil_of_not_folder h.not_folder
  have hkeeps := keeps_put (.file content) h.not_folder
  refine readFile_eq_ok.mpr ⟨names, hkeeps.resolve_eq h.resolve_eq, ?_, h.no_slash⟩
  rw [entry_put d _ hne, if_pos rfl]

/-- Where one file could be written another can be once the first is. -/
theorem Writable.put {path' : Text} {names' : List Text} (h : d.Writable path names)
    (h' : d.Writable path' names') (content : List Byte) :
    (d.put names' (.file content)).Writable path names := by
  have hne := ne_nil_of_not_folder h'.not_folder
  refine ⟨(keeps_put _ h'.not_folder).resolve_eq h.resolve_eq, ?_, h.no_slash⟩
  rw [entry_put d _ hne]
  split
  · simp
  · exact h.not_folder

/-- A path is a folder when it leads to one. -/
theorem isFolder_eq_true : d.isFolder path = true ↔
    ∃ names, d.resolve path = .ok names ∧ d.entry? names = some .folder := by
  unfold isFolder find
  cases d.resolve path with
  | error e => simp [Bind.bind, Except.bind]
  | ok names =>
    simp only [Bind.bind, Except.bind, Except.ok.injEq, exists_eq_left']
    rcases d.entry? names with _ | ⟨content'⟩ | _
    · simp
    · cases Path.endsWithSlash path <;> simp
    · simp

/-- What making a folder leaves behind, if it is made or was there. -/
theorem ensureFolder_spec (d : Directory) (path : Text) :
    Keeps [] d (d.ensureFolder path).2 ∧
      ((d.ensureFolder path).1 = .ok () → (d.ensureFolder path).2.isFolder path = true) := by
  unfold ensureFolder
  cases hmake : d.makeFolder path with
  | error e =>
    refine ⟨.refl d, fun h => ?_⟩
    cases hfolder : d.isFolder path with
    | true => rfl
    | false => simp [hfolder] at h
  | ok made =>
    unfold makeFolder at hmake
    obtain ⟨names, hresolve, hmake⟩ := bind_eq_ok.mp hmake
    split at hmake
    case isTrue => exact absurd hmake (by simp)
    case isFalse hnone =>
      obtain rfl := Except.ok.inj hmake
      rw [Option.not_isSome_iff_eq_none] at hnone
      have hne := ne_nil_of_not_folder (hnone.trans_ne (by simp))
      have hkeeps := keeps_put_of_none .folder hnone
      refine ⟨hkeeps, fun _ => isFolder_eq_true.mpr ⟨names, hkeeps.resolve_eq hresolve, ?_⟩⟩
      rw [entry_put d _ hne, if_pos rfl]

/-- Making the folders of a path keeps what there was, and the path is a folder if that
succeeds. -/
theorem ensureFolders_spec (d : Directory) (path : Text) (above : List Text) :
    Keeps [] d (d.ensureFolders path above).2 ∧
      ((d.ensureFolders path above).1 = .ok () →
        (d.ensureFolders path above).2.isFolder path = true) := by
  induction above generalizing path with
  | nil => exact ensureFolder_spec d path
  | cons parent above ih =>
    have hfirst := ensureFolder_spec d path
    rw [ensureFolders]
    split
    · have habove := ih parent
      generalize d.ensureFolders parent above = made at habove ⊢
      obtain ⟨outcome, made⟩ := made
      cases outcome with
      | ok _ =>
        have hsecond := ensureFolder_spec made path
        exact ⟨habove.1.trans hsecond.1, hsecond.2⟩
      | error e => exact ⟨habove.1, fun h => absurd h (by simp)⟩
    · exact hfirst

/-- Making folders keeps what was there, and the folder is there then. -/
theorem makeFolders_spec {outcome : Except FileError Unit}
    (h : d.makeFolders path = (outcome, d')) :
    Keeps [] d d' ∧ (outcome = .ok () → d'.isFolder path = true) := by
  have hspec := ensureFolders_spec d path (Path.ancestors path)
  rw [← makeFolders, h] at hspec
  exact hspec

/-- A walk of two parts is the second from where the first leads. -/
theorem walk_append (d : Directory) (names : List Text) (steps steps' : List Path.Component) :
    d.walk names (steps ++ steps') = d.walk names steps >>= fun last => d.walk last steps' := by
  induction steps generalizing names with
  | nil => rfl
  | cons step rest ih =>
    rw [List.cons_append, walk, walk]
    split
    · rfl
    · rfl
    · exact ih _

/-- Where the path of a name inside a folder leads. -/
theorem resolve_join {directory name : Text} (hname : Path.IsName name)
    (hresolve : d.resolve directory = .ok names) (hfolder : d.entry? names = some .folder) :
    d.resolve (Path.join directory name) = .ok (names ++ [name]) := by
  rw [resolve, Path.steps_join directory hname, walk_append, ← resolve, hresolve]
  show d.walk names [.name name] = _
  rw [walk, hfolder]
  rfl

end Directory

end Cli

end JsxStyle
