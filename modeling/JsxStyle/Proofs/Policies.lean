import JsxStyle.Proofs.Cascade

/-!
# Failures that end a compilation and failures that are collected

A compilation either ends with its first failure or goes on and collects them
all.  Up to the first failure the two do the same, and what is noted later is
noted behind it.  So a compilation that ends with failures answers what can be
read off the draft of one that goes on: the draft, if nothing failed, and the
first failure otherwise.

That holds of a step that notes one failure at most, and of what is done step
by step it holds if it holds of every step.  References are all restyled before
the first of their failures is noted; that changes a draft which nobody sees.

* `Draft.outcome`: what is answered where going on leads to a draft;
* `Carries`: a part of a compilation answers so, `Carries.bind` two of them one
  after the other, `Carries.foldlM` one for each entry of a list;
* `Settings.restyle_eq_outcome`: so does all that the settings ask for;
* `Agree`, `policies_agree`: what this means for the output and the error of a
  module.
-/

namespace JsxStyle

namespace Draft

/-- What is answered where going on leads to `d`. -/
def outcome (goOn : Bool) (d : Draft) : Except StyleError Draft :=
  match goOn, d.failures with
  | false, e :: _ => .error e
  | _, _ => .ok d

/-- Where nothing failed, or failures do not matter, the answer is the draft. -/
theorem outcome_eq_ok {goOn : Bool} {d : Draft} (h : goOn = true ∨ d.failures = []) :
    d.outcome goOn = .ok d := by
  rcases h with rfl | h
  · rfl
  · unfold outcome
    rw [h]
    cases goOn <;> rfl

/-- Without going on, the first failure is the outcome. -/
theorem outcome_of_failure {d : Draft} {e : StyleError} {rest : List StyleError}
    (h : d.failures = e :: rest) : d.outcome false = .error e := by
  unfold outcome
  rw [h]

end Draft

/-- `run` does what `change` does.  If failures are to end the compilation, it
answers with the first one of `change`, provided there was none before. -/
structure Carries (goOn : Bool) (run : Draft → Except StyleError Draft)
    (change : Draft → Draft) : Prop where
  keeps : ∀ d, d.failures <+: (change d).failures
  run_eq : ∀ d, goOn = true ∨ d.failures = [] → run d = (change d).outcome goOn

namespace Carries

variable {goOn : Bool} {run run' : Draft → Except StyleError Draft} {change change' : Draft → Draft}

/-- What cannot fail. -/
theorem ok (change : Draft → Draft) (h : ∀ d, (change d).failures = d.failures) :
    Carries goOn (fun d => .ok (change d)) change where
  keeps d := by simp only [h d, List.prefix_refl]
  run_eq d hd := (Draft.outcome_eq_ok (hd.imp_right (h d).trans)).symm

/-- One part of a compilation after the other. -/
theorem bind (h : Carries goOn run change) (h' : Carries goOn run' change') :
    Carries goOn (fun d => run d >>= run') (change' ∘ change) where
  keeps d := (h.keeps d).trans (h'.keeps _)
  run_eq d hd := by
    rw [h.run_eq d hd]
    cases goOn with
    | true => exact h'.run_eq (change d) (Or.inl rfl)
    | false =>
      cases hfailures : (change d).failures with
      | nil =>
        rw [Draft.outcome_eq_ok (Or.inr hfailures)]
        exact h'.run_eq (change d) (Or.inr hfailures)
      | cons e rest =>
        -- The second part is not run, and it would not have changed the first failure.
        obtain ⟨more, hmore⟩ := h'.keeps (change d)
        rw [hfailures] at hmore
        rw [Draft.outcome_of_failure hfailures, Function.comp_apply,
          Draft.outcome_of_failure hmore.symm]
        rfl

/-- The same part of a compilation for each entry of a list. -/
theorem foldlM {α : Type} {run : Draft → α → Except StyleError Draft}
    {change : Draft → α → Draft} (h : ∀ a, Carries goOn (run · a) (change · a)) (l : List α) :
    Carries goOn (fun d => l.foldlM run d) (fun d => l.foldl change d) := by
  induction l with
  | nil => exact .ok id fun _ => rfl
  | cons a rest ih =>
    simp only [List.foldlM_cons, List.foldl_cons]
    exact (h a).bind ih

end Carries

namespace Draft

variable (goOn : Bool) (s : Stylist)

/-- The draft with one more failure. -/
def note (d : Draft) (e : StyleError) : Draft :=
  { d with failures := d.failures ++ [e] }

/-- Reporting a failure carries out noting it. -/
theorem carries_report (e : StyleError) : Carries goOn (report goOn · e) (note · e) where
  keeps d := List.prefix_append ..
  run_eq d hd := by
    cases goOn with
    | true => rfl
    | false =>
      have hclean : d.failures = [] := hd.resolve_left (by simp)
      have hfailures : (note d e).failures = e :: [] := by rw [note, hclean, List.nil_append]
      rw [outcome_of_failure hfailures]
      rfl

/-- Restyling an attribute carries out the visit to it. -/
theorem carries_restyleAttribute (attr : NodeId) :
    Carries goOn (restyleAttribute goOn s · attr) (visit s · attr) where
  keeps d := by
    unfold visit
    split
    · exact List.prefix_append ..
    · exact List.prefix_refl _
  run_eq d hd := by
    unfold restyleAttribute visit
    split
    · dsimp only
      cases hf : (s.restyleAttribute attr d.tree).failure with
      | none =>
        rw [Option.toList_none, List.append_nil]
        refine (outcome_eq_ok ?_).symm
        exact hd
      | some e => exact (carries_report goOn e).run_eq _ hd
    · exact (outcome_eq_ok hd).symm

/-- All references to the style builder restyled, with their failures noted. -/
def visitReferences (scope : Scope) (name : Text) (d : Draft) : Draft :=
  let (failures, tree) := s.restyleReferences scope (d.tree.referencesTo name) d.tree
  { d with tree, failures := d.failures ++ failures }

/-- Failures noted one after the other are added at the end. -/
theorem foldl_note (failures : List StyleError) (d : Draft) :
    failures.foldl note d = { d with failures := d.failures ++ failures } := by
  induction failures generalizing d with
  | nil => simp
  | cons e rest ih =>
    rw [List.foldl_cons, ih]
    simp [note]

/-- Restyling the references carries out the visits to them. -/
theorem carries_restyleReferences (scope : Scope) (name : Text) :
    Carries goOn (restyleReferences goOn s scope name) (visitReferences s scope name) where
  keeps d := List.prefix_append ..
  run_eq d hd := by
    have h := Carries.foldlM (carries_report goOn)
      (s.restyleReferences scope (d.tree.referencesTo name) d.tree).1
    unfold restyleReferences visitReferences
    dsimp only
    rw [← foldl_note _ { d with tree := _ }]
    exact h.run_eq _ hd

end Draft

namespace Settings

variable (settings : Settings) (s : Stylist)

/-- The changes that the settings ask for once attributes are dealt with. -/
def finish (found? : Option StyleImport) (d : Draft) : Draft :=
  match found? with
  | none => d
  | some found =>
    let d := d.visitReferences s
      { allowAnywhere := settings.options.allowStyleProp, builder := some found.name } found.name
    if settings.options.stripImport then { d with tree := d.tree.stripImport found } else d

/-- The changes that the settings ask for, whatever fails. -/
def change (t : Tree) : Draft :=
  let found := t.styleImport? settings.options.importSources
  let draft : Draft := { tree := t }
  settings.finish s found
    (if settings.options.requireImport && found.isNone then draft
      else ((t.descendants Tree.root).filter fun id => t.form id = .attr).foldl (Draft.visit s)
        draft)

/-- A compilation answers what going on leads to, or the first failure on the way. -/
theorem restyle_eq_outcome (t : Tree) :
    settings.restyle s t = (settings.change s t).outcome settings.options.continueOnError := by
  have hfirst : Carries settings.options.continueOnError
      (Draft.restyleAttributes settings.options.continueOnError s ·)
      fun d => ((d.tree.descendants Tree.root).filter
        fun id => d.tree.form id = .attr).foldl (Draft.visit s) d := by
    have hfold := Carries.foldlM (Draft.carries_restyleAttribute settings.options.continueOnError s)
    exact ⟨fun d => (hfold _).keeps d, fun d hd => (hfold _).run_eq d hd⟩
  have hstrip (found : StyleImport) : Carries settings.options.continueOnError
      (fun d => .ok (if settings.options.stripImport then
        { d with tree := d.tree.stripImport found } else d))
      fun d => if settings.options.stripImport then
        { d with tree := d.tree.stripImport found } else d := by
    refine .ok _ fun d => ?_
    split <;> rfl
  have hrest (found : StyleImport) :=
    (Draft.carries_restyleReferences settings.options.continueOnError s
      { allowAnywhere := settings.options.allowStyleProp, builder := some found.name }
      found.name).bind (hstrip found)
  unfold restyle change finish
  dsimp only
  split
  · cases t.styleImport? settings.options.importSources with
    | none => exact (Draft.outcome_eq_ok (Or.inr rfl)).symm
    | some found => exact (hrest found).run_eq _ (Or.inr rfl)
  · cases t.styleImport? settings.options.importSources with
    | none => exact (hfirst.bind (.ok id fun _ => rfl)).run_eq _ (Or.inr rfl)
    | some found => exact (hfirst.bind (hrest found)).run_eq _ (Or.inr rfl)

/-- The same settings, with failures that end the compilation or do not. -/
def goingOn (goOn : Bool) : Settings :=
  { settings with options := { settings.options with continueOnError := goOn } }

end Settings

section Compile

variable {settings : Settings} {s : Stylist} {source : Text} {tree : Tree}

/-- A source that cannot be read is answered with the error and its position. -/
theorem compileWith_unread {e : ReadError} (h : Tree.ofSource source = .error e) :
    compileWith s settings source = .error (.read (source.positionAt e.offset) e) := by
  rw [compileWith, h]

/-- A tree that is restyled is answered with the output of the draft. -/
theorem compileWith_restyled {d : Draft} (h : Tree.ofSource source = .ok tree)
    (hd : settings.restyle s tree = .ok d) :
    compileWith s settings source = .ok (d.output source) := by
  rw [compileWith, h]
  dsimp only
  rw [hd]

/-- A tree that fails to be restyled is answered with the failure and its position. -/
theorem compileWith_failed {e : StyleError} (h : Tree.ofSource source = .ok tree)
    (he : settings.restyle s tree = .error e) :
    compileWith s settings source = .error (.style (e.position source) e) := by
  rw [compileWith, h]
  dsimp only
  rw [he]

end Compile

/-- What a compilation answers that ends with its first failure, beside what one answers that
goes on. -/
inductive Agree : (goingOn ending : Except CompileError Output) → Prop
  /-- What cannot be read is not compiled, and the error is the same. -/
  | unread (position : Position) (e : ReadError) :
      Agree (.error (.read position e)) (.error (.read position e))
  /-- Without diagnostics the output is the same. -/
  | clean (out : Output) (h : out.diagnostics = []) : Agree (.ok out) (.ok out)
  /-- With diagnostics the error has the position and the message of the first one. -/
  | failed (out : Output) (d : Diagnostic) (rest : List Diagnostic) (e : StyleError)
      (h : out.diagnostics = d :: rest) (hmessage : e.message = d.message) :
      Agree (.ok out) (.error (.style d.position e))

/-- **The two ways to deal with failures agree.** -/
theorem policies_agree (settings : Settings) (source : Text) :
    Agree (compile (settings.goingOn true) source) (compile (settings.goingOn false) source) := by
  unfold compile
  cases htree : Tree.ofSource source with
  | error e =>
    rw [compileWith_unread htree, compileWith_unread htree]
    exact .unread _ e
  | ok tree =>
    -- Both compilations make the same changes, whatever fails.
    have hrestyle (goOn : Bool) : (settings.goingOn goOn).restyle settings.stylist tree =
        (settings.change settings.stylist tree).outcome goOn :=
      (settings.goingOn goOn).restyle_eq_outcome settings.stylist tree
    have hgoing := compileWith_restyled htree
      ((hrestyle true).trans (Draft.outcome_eq_ok (Or.inl rfl)))
    rw [show (settings.goingOn true).stylist = settings.stylist from rfl, hgoing]
    cases hfailures : (settings.change settings.stylist tree).failures with
    | nil =>
      have hending := compileWith_restyled htree
        ((hrestyle false).trans (Draft.outcome_eq_ok (Or.inr hfailures)))
      rw [show (settings.goingOn false).stylist = settings.stylist from rfl, hending]
      exact .clean _ (by simp [Draft.output, hfailures])
    | cons e rest =>
      have hending := compileWith_failed htree
        ((hrestyle false).trans (Draft.outcome_of_failure hfailures))
      rw [show (settings.goingOn false).stylist = settings.stylist from rfl, hending]
      refine .failed _ ⟨e.position source, e.message⟩
        (rest.map fun e => ⟨e.position source, e.message⟩) e ?_ rfl
      rw [Draft.output, hfailures]
      rfl

end JsxStyle
