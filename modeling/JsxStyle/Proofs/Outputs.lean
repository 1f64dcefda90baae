import JsxStyle.Cli.Run
import JsxStyle.Proofs.Places

/-!
# The outputs of several files

Several files are compiled one after the other.  The output of each goes into one
folder, under the name of the file, and takes the place of what is there.  So an
output is lost if a later file has one of the same name, and a file that stands
where an earlier output goes is not compiled as it was, and is lost itself.  The
run does not notice and ends in success.

Where neither happens, every file is compiled as it was at the beginning, and
its output is there at the end.

* `Yields`: a part of a run goes on, with what it leaves of the directory;
* `yields_compileInto`: one file is read, compiled and written;
* `yields_compileAll`: all of them are, where no output takes the place of a file
  that still waits;
* `Batch`: what is asked for when several files are to be compiled;
* `Batch.delivered_of_apart`: it is done, if names and places are apart;
* `not_always_delivered`: otherwise it may not be done.
-/

namespace JsxStyle

namespace Cli

open Ascii

/-- In the directory `d` the run goes on with the value `a`, and leaves the directory `d'`. -/
def Yields {α : Type} (x : Run (StateM Desk) α) (d : Directory) (a : α) (d' : Directory) : Prop :=
  ∀ desk : Desk, desk.directory = d →
    ∃ desk' : Desk, x.run.run desk = (.ok a, desk') ∧ desk'.directory = d'

section Parts

variable {α β : Type} {d d' d'' : Directory} {a : α} {b : β}

theorem yields_pure (a : α) (d : Directory) : Yields (pure a) d a d :=
  fun desk hdesk => ⟨desk, rfl, hdesk⟩

/-- What one run yields the next goes on with. -/
theorem Yields.bind {x : Run (StateM Desk) α} {f : α → Run (StateM Desk) β}
    (h : Yields x d a d') (h' : Yields (f a) d' b d'') : Yields (x >>= f) d b d'' := by
  intro desk hdesk
  obtain ⟨desk', hrun, hdesk'⟩ := h desk hdesk
  obtain ⟨desk'', hrun', hdesk''⟩ := h' desk' hdesk'
  refine ⟨desk'', ?_, hdesk''⟩
  rw [ExceptT.run_bind, StateT.run_bind, hrun]
  exact hrun'

/-- An action at the desk yields what it answers. -/
theorem yields_lift {x : StateM Desk α}
    (h : ∀ desk : Desk, desk.directory = d →
      ∃ desk', x.run desk = (a, desk') ∧ desk'.directory = d') :
    Yields (liftM x) d a d' := by
  intro desk hdesk
  obtain ⟨desk', hrun, hdesk'⟩ := h desk hdesk
  refine ⟨desk', ?_, hdesk'⟩
  rw [ExceptT.run_liftM, StateT.run_map, hrun]
  rfl

/-- A complaint leaves the directory as it is. -/
theorem yields_complain (line : Text) (d : Directory) : Yields (complain line) d () d :=
  yields_lift fun _ hdesk => ⟨_, rfl, hdesk⟩

/-- An attempt that succeeds yields its answer, and nothing is given up. -/
theorem yields_orGiveUpOn (complaint : String) (path : Text)
    {attempt : StateM Desk (Except FileError α)}
    (h : ∀ desk : Desk, desk.directory = d →
      ∃ desk', attempt.run desk = (.ok a, desk') ∧ desk'.directory = d') :
    Yields (orGiveUpOn complaint path attempt) d a d' :=
  (yields_lift h).bind (yields_pure a d')

/-- A step for each entry of a list, where no step changes the directory. -/
theorem yields_each {step : α → Run (StateM Desk) Unit} (h : ∀ a, Yields (step a) d () d)
    (l : List α) :
    Yields (forIn l PUnit.unit fun a _ => do step a; return .yield PUnit.unit) d PUnit.unit d := by
  induction l with
  | nil => exact yields_pure _ d
  | cons a rest ih =>
    rw [List.forIn_cons, bind_assoc]
    exact (h a).bind ih

end Parts

/-- The text of a file in a directory. -/
def Directory.text (d : Directory) (path : Text) : Except FileError Text :=
  (d.readFile path).bind textOf

/-- What a file in a directory compiles to, if it does. -/
def compiled? (s : Settings) (d : Directory) (file : Text) : Option Text :=
  match d.text file with
  | .error _ => none
  | .ok source =>
    match compile s source with
    | .error _ => none
    | .ok output => some output.printed.code

section Loop

variable {s : Settings} {d d' : Directory} {folder : Text} {ext? : Option Text}

/-- A file compiles to what is printed of the text it holds. -/
theorem compiled?_eq_some {file content : Text} : compiled? s d file = some content ↔
    ∃ source output, d.text file = .ok source ∧ compile s source = .ok output ∧
      output.printed.code = content := by
  unfold compiled?
  split
  · simp [*]
  · split <;> simp [*]

/-- The text of a file is its content. -/
theorem text_eq_ok {path source : Text} (h : d.text path = .ok source) :
    d.readFile path = .ok source := by
  obtain ⟨bytes, hread, htext⟩ := bind_eq_ok.mp h
  unfold textOf at htext
  split at htext
  · rw [hread, htext]
  · exact absurd htext (by simp)

/-- Files that read alike compile alike. -/
theorem compiled?_congr {file file' : Text} (h : d'.readFile file' = d.readFile file) :
    compiled? s d' file' = compiled? s d file := by
  unfold compiled? Directory.text
  rw [h]

/-- Compiling a text yields what is printed and leaves the directory. -/
theorem yields_compileText {name source : Text} {output : Output} (d : Directory)
    (h : compile s source = .ok output) :
    Yields (compileText s name source) d output.printed.code d := by
  unfold compileText
  rw [h]
  exact (yields_each (fun _ => yields_complain _ d) _).bind (yields_pure _ d)

/-- The path of the output for a file. -/
def outputPath (folder : Text) (ext? : Option Text) (file : Text) : Text :=
  Path.join folder (outputName file ext?)

/-- One file is compiled into a folder. -/
theorem yields_compileInto {file content : Text} {names : List Text}
    (hcompiled : compiled? s d file = some content)
    (hwritable : d.Writable (outputPath folder ext? file) names) :
    Yields (compileInto s folder ext? file) d () (d.put names (.file content)) := by
  obtain ⟨source, output, htext, hcompile, rfl⟩ := compiled?_eq_some.mp hcompiled
  have hread : Yields (orGiveUpOn "Error reading " file (readText file)) d source d := by
    refine yields_orGiveUpOn _ _ fun desk hdesk => ⟨desk, ?_, hdesk⟩
    subst hdesk
    exact Prod.ext htext rfl
  have hwrite : Yields (orGiveUpOn "Error writing " (outputPath folder ext? file)
      (Host.writeFile (outputPath folder ext? file) output.printed.code)) d ()
      (d.put names (.file output.printed.code)) := by
    refine yields_orGiveUpOn _ _ fun desk hdesk =>
      ⟨{ desk with directory := d.put names (.file output.printed.code) }, ?_, rfl⟩
    subst hdesk
    simp only [Host.writeFile, Desk.attempt, StateT.run_bind, StateT.run_get, pure_bind,
      Directory.writeFile_eq hwritable]
    rfl
  exact hread.bind ((yields_compileText d hcompile).bind (hwrite.bind (yields_complain _ _)))

/-- Files that wait to be compiled into a folder, with the places their outputs go to.  Files
with outputs in one place hold the same, and no output goes to the place of a later file. -/
structure Waiting (s : Settings) (d : Directory) (folder : Text) (ext? : Option Text)
    (target : Text → List Text) (files : List Text) : Prop where
  compiled : ∀ f ∈ files, (compiled? s d f).isSome
  writable : ∀ f ∈ files, d.Writable (outputPath folder ext? f) (target f)
  same : ∀ f ∈ files, ∀ g ∈ files, target f = target g → d.readFile f = d.readFile g
  later : files.Pairwise fun f g => d.resolve g ≠ .ok (target f)

namespace Waiting

variable {target : Text → List Text} {f : Text} {rest : List Text}

/-- Once the output of the first file is written, the others are as they were. -/
theorem unchanged (h : Waiting s d folder ext? target (f :: rest)) (content : Text) {g : Text}
    (hg : g ∈ rest) :
    (d.put (target f) (.file content)).readFile g = d.readFile g ∧
      (d.put (target f) (.file content)).resolve g = d.resolve g := by
  have hplace := h.writable f (List.mem_cons_self ..)
  have hkeeps := Directory.keeps_put (.file content) hplace.not_folder
  obtain ⟨content', hcontent'⟩ :=
    Option.isSome_iff_exists.mp (h.compiled g (List.mem_cons_of_mem _ hg))
  obtain ⟨source, -, htext, -⟩ := compiled?_eq_some.mp hcontent'
  have hread := text_eq_ok htext
  obtain ⟨names, hresolve, -⟩ := Directory.readFile_eq_ok.mp hread
  rw [hread, hresolve]
  refine ⟨hkeeps.readFile_eq hread fun names' hresolve' hmem => ?_, hkeeps.resolve_eq hresolve⟩
  refine (List.pairwise_cons.mp h.later).1 g hg ?_
  rw [hresolve', List.mem_singleton.mp hmem]

/-- When the first output is written, the other files still wait. -/
theorem tail (h : Waiting s d folder ext? target (f :: rest)) (content : Text) :
    Waiting s (d.put (target f) (.file content)) folder ext? target rest where
  compiled g hg := by
    rw [compiled?_congr (h.unchanged content hg).1]
    exact h.compiled g (List.mem_cons_of_mem _ hg)
  writable g hg := (h.writable g (List.mem_cons_of_mem _ hg)).put
    (h.writable f (List.mem_cons_self ..)) content
  same g hg g' hg' htarget := by
    rw [(h.unchanged content hg).1, (h.unchanged content hg').1]
    exact h.same g (List.mem_cons_of_mem _ hg) g' (List.mem_cons_of_mem _ hg') htarget
  later := (List.pairwise_cons.mp h.later).2.imp_of_mem fun _ hg' hne =>
    (h.unchanged content hg').2 ▸ hne

end Waiting

/-- All files are compiled into a folder, each as it was at the beginning. -/
theorem yields_compileAll {target : Text → List Text} {files : List Text}
    (h : Waiting s d folder ext? target files) :
    ∃ d', Yields (files.forM (compileInto s folder ext?)) d () d' ∧
      Directory.Keeps (files.map target) d d' ∧
      ∀ f ∈ files, ∀ content, compiled? s d f = some content →
        d'.readFile (outputPath folder ext? f) = .ok content := by
  induction files generalizing d with
  | nil => exact ⟨d, yields_pure () d, .refl d, by simp⟩
  | cons f rest ih =>
    obtain ⟨content, hcontent⟩ :=
      Option.isSome_iff_exists.mp (h.compiled f (List.mem_cons_self ..))
    obtain ⟨d', hyields, hkept, hdone⟩ := ih (h.tail content)
    have hplace := h.writable f (List.mem_cons_self ..)
    have hkeeps := Directory.keeps_put (.file content) hplace.not_folder
    have hother (g : Text) (hg : g ∈ rest) {content' : Text}
        (hcontent' : compiled? s d g = some content') :
        d'.readFile (outputPath folder ext? g) = .ok content' :=
      hdone g hg content' ((compiled?_congr (h.unchanged content hg).1).trans hcontent')
    have hmine : d'.readFile (outputPath folder ext? f) = .ok content := by
      by_cases hagain : target f ∈ rest.map target
      · -- A later file has its output in the same place, and then holds the same.
        obtain ⟨g, hg, htarget⟩ := List.mem_map.mp hagain
        have hmem := List.mem_cons_of_mem f hg
        have hsame := h.same g hmem f (List.mem_cons_self ..) htarget
        obtain ⟨names, hresolve, hentry, -⟩ := Directory.readFile_eq_ok.mp
          (hother g hg ((compiled?_congr hsame).trans hcontent))
        have hplace' := hkept.resolve_eq (hkeeps.resolve_eq (h.writable g hmem).resolve_eq)
        rw [hplace', htarget] at hresolve
        obtain rfl := Except.ok.inj hresolve
        exact Directory.readFile_eq_ok.mpr
          ⟨_, hkept.resolve_eq (hkeeps.resolve_eq hplace.resolve_eq), hentry, hplace.no_slash⟩
      · refine hkept.readFile_eq (Directory.readFile_put hplace content) fun names hresolve hmem =>
          hagain ?_
        rw [hkeeps.resolve_eq hplace.resolve_eq] at hresolve
        rwa [Except.ok.inj hresolve]
    refine ⟨d', (yields_compileInto hcontent hplace).bind hyields, ?_,
      fun g hg content' hcontent' => ?_⟩
    · refine (hkeeps.mono ?_).trans (hkept.mono fun names hmem => List.mem_cons_of_mem _ hmem)
      exact fun names hmem => List.mem_singleton.mp hmem ▸ List.mem_cons_self ..
    · rcases List.mem_cons.mp hg with rfl | hg
      · rwa [Option.some.inj (hcontent'.symm.trans hcontent)]
      · exact hother g hg hcontent'

end Loop

/-- Several files that are to be compiled into a folder, which can be made and is not one of the
outputs. -/
structure Batch (args : List Text) (desk : Desk) where
  invocation : Invocation
  understood : Invocation.ofArguments? args = some invocation
  settings : Settings
  loaded : (Cli.settings invocation : Run (StateM Desk) Settings).run.run desk =
    (.ok settings, desk)
  files : List Text
  collected : (collect invocation.inputs : StateM Desk (List Text)).run desk = (files, desk)
  several : ∃ f ∈ files, ∃ g ∈ files, f ≠ g
  folder : Text
  directed : invocation.setting? .output = some folder
  made : Directory
  makes : desk.directory.makeFolders folder = (.ok (), made)
  compiled : ∀ f ∈ files, (compiled? settings desk.directory f).isSome
  free : ∀ f ∈ files, made.isFolder (outputPath folder (invocation.setting? .ext) f) = false

namespace Batch

variable {args : List Text} {desk : Desk}

/-- The name of the output for a file. -/
def name (b : Batch args desk) (file : Text) : Text :=
  outputName file (b.invocation.setting? .ext)

/-- The path of the output for a file. -/
def path (b : Batch args desk) (file : Text) : Text :=
  outputPath b.folder (b.invocation.setting? .ext) file

/-- The run ends in success, and for each file there is what it compiles to. -/
def Delivered (b : Batch args desk) : Prop :=
  ∃ desk', (run args : StateM Desk Exit).run desk = (.success, desk') ∧
    ∀ f ∈ b.files, ∀ content, compiled? b.settings desk.directory f = some content →
      desk'.directory.readFile (b.path f) = .ok content

/-- A batch has two files or more. -/
theorem exists_files (b : Batch args desk) : ∃ f g rest, b.files = f :: g :: rest := by
  obtain ⟨f, hf, g, hg, hne⟩ := b.several
  cases hfiles : b.files with
  | nil => exact absurd (hfiles ▸ hf) (by simp)
  | cons first more =>
    cases more with
    | nil =>
      rw [hfiles] at hf hg
      exact absurd ((List.mem_singleton.mp hf).trans (List.mem_singleton.mp hg).symm) hne
    | cons second rest => exact ⟨first, second, rest, rfl⟩

/-- A run for several files is the making of the folder and then the loop over the files. -/
theorem run_eq (b : Batch args desk) {desk' : Desk}
    (h : (b.files.forM (compileInto b.settings b.folder (b.invocation.setting? .ext)) :
      Run (StateM Desk) Unit).run.run { desk with directory := b.made } = (.ok (), desk')) :
    (run args : StateM Desk Exit).run desk = (.success, desk') := by
  obtain ⟨f, g, rest, hfiles⟩ := b.exists_files
  have hinputs : b.invocation.inputs.isEmpty = false := by
    cases hinputs : b.invocation.inputs with
    | nil =>
      have hcollected := b.collected
      rw [hinputs, hfiles] at hcollected
      have hnone : (collect [] : StateM Desk (List Text)).run desk = ([], desk) := by
        simp only [collect, List.mapM_nil, pure_bind, List.flatten_nil, List.mergeSort_nil]
        rfl
      exact absurd (congrArg Prod.fst (hnone.symm.trans hcollected)) (by simp)
    | cons input more => rfl
  have hmake : (orGiveUp "Error creating output directory: " (Host.makeDirectories b.folder) :
      Run (StateM Desk) Unit).run.run desk = (.ok (), { desk with directory := b.made }) := by
    have hattempt : (Host.makeDirectories b.folder : StateM Desk (Except FileError Unit)).run desk =
        (.ok (), { desk with directory := b.made }) := by
      simp only [Host.makeDirectories, Desk.proceed, StateT.run_bind, StateT.run_get, pure_bind,
        b.makes]
      rfl
    rw [orGiveUp, ExceptT.run_bind, StateT.run_bind, ExceptT.run_liftM, StateT.run_map, hattempt]
    rfl
  have hcompile : (compileFiles b.invocation b.settings b.files : Run (StateM Desk) Unit).run.run
      desk = (.ok (), desk') := by
    rw [hfiles] at h ⊢
    rw [compileFiles, b.directed]
    · show (bind (orGiveUp _ (Host.makeDirectories b.folder)) _ :
        Run (StateM Desk) Unit).run.run desk = _
      rw [ExceptT.run_bind, StateT.run_bind, hmake]
      exact h
    · simp
    · simp
  have hcarried : (carryOut b.invocation : Run (StateM Desk) Unit).run.run desk =
      (.ok (), desk') := by
    rw [carryOut, ExceptT.run_bind, StateT.run_bind, b.loaded]
    show (ite (b.invocation.inputs.isEmpty = true) _ _ : Run (StateM Desk) Unit).run.run desk = _
    rw [hinputs]
    show StateT.run (ExceptT.run (bind (liftM (collect b.invocation.inputs)) _)) desk = _
    rw [ExceptT.run_bind, StateT.run_bind, ExceptT.run_liftM, StateT.run_map, b.collected]
    exact hcompile
  rw [run, b.understood]
  simp only [StateT.run_bind, hcarried]
  rfl

/-- **The output of every file is delivered**, if the names of the outputs are different
wherever the files are, and no output goes to the place of a file that comes later. -/
theorem delivered_of_apart (b : Batch args desk)
    (hname : ∀ f ∈ b.files, Path.IsName (b.name f))
    (hsame : ∀ f ∈ b.files, ∀ g ∈ b.files, b.name f = b.name g →
      desk.directory.readFile f = desk.directory.readFile g)
    (hlater : b.files.Pairwise fun f g => b.made.resolve g ≠ b.made.resolve (b.path f)) :
    b.Delivered := by
  obtain ⟨hkeeps, hfolder⟩ := Directory.makeFolders_spec b.makes
  obtain ⟨root, hroot, hentry⟩ := Directory.isFolder_eq_true.mp (hfolder rfl)
  have hresolve (f : Text) (hf : f ∈ b.files) :
      b.made.resolve (b.path f) = .ok (root ++ [b.name f]) :=
    Directory.resolve_join (hname f hf) hroot hentry
  have hread (f : Text) (hf : f ∈ b.files) :
      b.made.readFile f = desk.directory.readFile f := by
    obtain ⟨content, hcontent⟩ := Option.isSome_iff_exists.mp (b.compiled f hf)
    obtain ⟨source, -, htext, -⟩ := compiled?_eq_some.mp hcontent
    rw [text_eq_ok htext]
    exact hkeeps.readFile_eq (text_eq_ok htext) (by simp)
  have hwaiting : Waiting b.settings b.made b.folder (b.invocation.setting? .ext)
      (fun f => root ++ [b.name f]) b.files := by
    refine ⟨fun f hf => ?_, fun f hf => ⟨hresolve f hf, fun hthere => ?_, ?_⟩,
      fun f hf g hg htarget => ?_, ?_⟩
    · rw [compiled?_congr (hread f hf)]
      exact b.compiled f hf
    · have hfolder := Directory.isFolder_eq_true.mpr ⟨_, hresolve f hf, hthere⟩
      exact absurd (hfolder.symm.trans (b.free f hf)) (by simp)
    · exact Path.endsWithSlash_join b.folder (hname f hf)
    · rw [hread f hf, hread g hg]
      exact hsame f hf g hg (by simpa using htarget)
    · exact hlater.imp_of_mem fun {f g} hf _ hne => hresolve f hf ▸ hne
  obtain ⟨d', hyields, -, hdone⟩ := yields_compileAll hwaiting
  obtain ⟨desk', hrun, rfl⟩ := hyields { desk with directory := b.made } rfl
  refine ⟨desk', b.run_eq hrun, fun f hf content hcontent => hdone f hf content ?_⟩
  rwa [compiled?_congr (hread f hf)]

end Batch

/-- Files that are listed in their order are collected as they are listed. -/
theorem collect_eq {inputs : List Text} {desk : Desk} {listed : List (List Text)}
    (hlisted : (inputs.mapM filesOf : StateM Desk (List (List Text))).run desk = (listed, desk))
    (hsorted : listed.flatten.Pairwise (Path.le · ·)) :
    (collect inputs : StateM Desk (List Text)).run desk = (listed.flatten, desk) := by
  rw [collect, StateT.run_bind, hlisted]
  exact Prod.ext (List.mergeSort_of_pairwise hsorted) rfl

/-- A desk with a file in each of the folders `a` and `b`. -/
def twoFolders (first second : Text) : Desk where
  directory := {
    entries := [
      ([Text.ofString "a"], .folder),
      ([Text.ofString "a", first], .file (Text.ofString "first;")),
      ([Text.ofString "b"], .folder),
      ([Text.ofString "b", second], .file (Text.ofString "second;"))] }

/-- Two files that are compiled into a third folder. -/
def apartBatch : Batch (["a", "b", "-o", "out"].map Text.ofString)
    (twoFolders (Text.ofString "x.js") (Text.ofString "y.js")) where
  invocation := {
    inputs := ["a", "b"].map Text.ofString
    settings := [(.output, Text.ofString "out")] }
  understood := by decide +kernel
  settings := {}
  loaded := rfl
  files := [[Text.ofString "a/x.js"], [Text.ofString "b/y.js"]].flatten
  collected := collect_eq (Prod.ext (by decide +kernel) rfl) (by decide +kernel)
  several := by decide +kernel
  folder := Text.ofString "out"
  directed := by decide +kernel
  made := ((twoFolders (Text.ofString "x.js") (Text.ofString "y.js")).directory.makeFolders
    (Text.ofString "out")).2
  makes := by decide +kernel
  compiled := by decide +kernel
  free := by decide +kernel

/-- Two files with outputs apart are both delivered. -/
theorem apartBatch_delivered : apartBatch.Delivered :=
  apartBatch.delivered_of_apart (by decide +kernel) (by decide +kernel) (by decide +kernel)

/-- Two files that are compiled into the folder of the second, whose name is that of the first
output. -/
def meetingBatch : Batch (["a", "b", "-o", "b", "--ext", "min.js"].map Text.ofString)
    (twoFolders (Text.ofString "x.js") (Text.ofString "x.min.js")) where
  invocation := {
    inputs := ["a", "b"].map Text.ofString
    settings := [(.output, Text.ofString "b"), (.ext, Text.ofString "min.js")] }
  understood := by decide +kernel
  settings := {}
  loaded := rfl
  files := [[Text.ofString "a/x.js"], [Text.ofString "b/x.min.js"]].flatten
  collected := collect_eq (Prod.ext (by decide +kernel) rfl) (by decide +kernel)
  several := by decide +kernel
  folder := Text.ofString "b"
  directed := by decide +kernel
  made := (twoFolders (Text.ofString "x.js") (Text.ofString "x.min.js")).directory
  makes := by decide +kernel
  compiled := by decide +kernel
  free := by decide +kernel

/-- Not every batch is delivered: the second file of this one is overwritten before it is read,
although the outputs have different names. -/
theorem not_always_delivered :
    ¬ ∀ (args : List Text) (desk : Desk) (b : Batch args desk), b.Delivered := by
  intro h
  obtain ⟨desk', hrun, hdone⟩ := h _ _ meetingBatch
  have hsecond := hdone (Text.ofString "b/x.min.js") (by decide +kernel) (Text.ofString "second;")
    (by decide +kernel)
  have hloop := meetingBatch.run_eq (Prod.ext (by decide +kernel) rfl)
  obtain rfl : desk' = _ := (Prod.ext_iff.mp (hrun.symm.trans hloop)).2
  have hfirst : Except.ok (Text.ofString "first;") = Except.ok (Text.ofString "second;") :=
    Eq.trans (by decide +kernel) hsecond
  exact absurd (Except.ok.inj hfirst) (by decide +kernel)

end Cli

end JsxStyle
