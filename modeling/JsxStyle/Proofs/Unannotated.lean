import JsxStyle.Proofs.Erased
import JsxStyle.Proofs.Marks
import JsxStyle.Proofs.Policies
import JsxStyle.Proofs.Silent

/-!
# Annotations change nothing but themselves

A module compiled with annotations and without goes through the same stages,
and after each of them the two drafts are beside one another: their stores are
alike, and they have noted the same.  That the renaming leaves the nodes of the
module as they are keeps the two runs going over the same attributes and the
same import.

* `Draft.Beside`: the two drafts, `Draft.Beside.visit` one attribute later,
  `Draft.beside_change` at the end;
* `Alongside`: two answers that are one error or two results alike;
* `annotations_change_themselves`: what this means for a module.
-/

namespace JsxStyle

namespace Tree

/-- The import of the style builder is a node of the module. -/
theorem lt_size_of_styleImport {t : Tree} (ht : t.Linked) {sources : List Text}
    {found : StyleImport} (h : t.styleImport? sources = some found) : found.node < t.size := by
  obtain ⟨id, hid, hfound⟩ := List.exists_of_findSome?_eq_some h
  split at hfound
  · split at hfound
    · obtain ⟨name, -, rfl⟩ := Option.map_eq_some_iff.mp hfound
      exact ht.lt_size_of_mem hid
    · exact absurd hfound (by simp)
  · exact absurd hfound (by simp)

end Tree

namespace Draft

open JsxStyle.Tree

/-- A draft with annotations beside one without, both on the way from the store `t₀`. -/
structure Beside (label : Text) (t₀ : Tree) (d d' : Draft) : Prop where
  moves : Moves t₀ d.tree
  moves' : Moves t₀ d'.tree
  alike : ∃ f, (∀ n < t₀.size, f n = n) ∧ Alike label f d.tree d'.tree
  seen : d.seen = d'.seen
  failures : d.failures = d'.failures

theorem Beside.refl (label : Text) (t₀ : Tree) : Beside label t₀ { tree := t₀ } { tree := t₀ } where
  moves := .refl
  moves' := .refl
  alike := ⟨id, fun _ _ => rfl, .refl label t₀⟩
  seen := rfl
  failures := rfl

section Steps

variable {s : Stylist} {callee : Text} {t₀ : Tree} {d d' : Draft}
variable (h : Beside s.annotator.label t₀ d d') (ht₀ : t₀.Sound)
  (hs : s.generate = Generator.runtimeCall callee)
include h ht₀ hs

/-- An attribute is restyled in both drafts. -/
theorem Beside.visit (hshorthand : s.annotator.label ≠ Vocabulary.shorthand)
    (hstyle : s.annotator.label ≠ Vocabulary.style) {attr : NodeId} (hattr : t₀.form attr = .attr) :
    Beside s.annotator.label t₀ (d.visit s attr) (d'.visit s.silent attr) := by
  have hplain : s.generate.Plain := fun _ _ hast => Or.inl ⟨callee, hs ▸ hast⟩
  have ha := h.moves.sound ht₀
  have hp := h.moves'.sound ht₀
  obtain ⟨f, hf, halike⟩ := h.alike
  have hlt : attr < t₀.size := lt_size_of_form (by rw [hattr]; decide)
  have hattr' : d'.tree.form attr = .attr := (h.moves'.form_eq ht₀ hlt).trans hattr
  have hattached := halike.isAttached_eq ha.linked hp.linked (n := attr) (by simp [hattr'])
  have hname := halike.attributeName_eq attr
  rw [hf attr hlt] at hattached hname
  unfold Draft.visit
  rw [hattached]
  split
  · have hmoves := Stylist.moves_restyleAttribute ha hplain attr
    have hmoves' := Stylist.moves_restyleAttribute (s := s.silent) hp hplain attr
    have hsilent := Stylist.moves_restyleAttribute (s := s.silent) ha hplain attr
    have hstep := Stylist.restyleAttribute_alike (s := s.silent) halike ha hp hplain rfl hshorthand
      hstyle attr
    obtain ⟨hfailure, hinscribed⟩ := Stylist.inscribed_restyleAttribute ha hs hshorthand attr
    rw [hf attr hlt] at hstep
    obtain ⟨g, hg, hafter⟩ := hstep.tree.inscribed (hsilent.sound ha).linked
      (hmoves'.sound hp).linked hinscribed
    refine ⟨h.moves.trans hmoves, h.moves'.trans hmoves', ⟨g, fun n hn => ?_, hafter⟩, ?_, ?_⟩
    · have hle := Nat.le_trans (h.moves'.size_le ht₀) (hmoves'.size_le hp)
      rw [hg n (Nat.lt_of_lt_of_le hn hle), hf n hn]
    · rw [h.seen, hname]
    · dsimp only
      rw [h.failures, hfailure, hstep.failure]
  · exact h

theorem Beside.visits (hshorthand : s.annotator.label ≠ Vocabulary.shorthand)
    (hstyle : s.annotator.label ≠ Vocabulary.style) {attributes : List NodeId}
    (hattributes : ∀ attr ∈ attributes, t₀.form attr = .attr) :
    Beside s.annotator.label t₀ (attributes.foldl (Draft.visit s) d)
      (attributes.foldl (Draft.visit s.silent) d') := by
  induction attributes generalizing d d' with
  | nil => exact h
  | cons attr rest ih =>
    exact ih (h.visit ht₀ hs hshorthand hstyle (hattributes attr List.mem_cons_self))
      fun b hb => hattributes b (List.mem_cons_of_mem _ hb)

/-- The references are restyled in both drafts. -/
theorem Beside.visitReferences (scope : Scope) (name : Text) :
    Beside s.annotator.label t₀ (d.visitReferences s scope name)
      (d'.visitReferences s.silent scope name) := by
  have hplain : s.generate.Plain := fun _ _ hast => Or.inl ⟨callee, hs ▸ hast⟩
  have ha := h.moves.sound ht₀
  have hp := h.moves'.sound ht₀
  obtain ⟨f, hf, halike⟩ := h.alike
  have hreferences : ∀ r ∈ d'.tree.referencesTo name, d'.tree.form r = .ident := by
    intro r hr
    exact congrArg Kind.form (of_decide_eq_true (List.mem_filter.mp hr).2)
  obtain ⟨hfailures, g, hg, hafter⟩ :=
    Stylist.restyleReferences_alike halike ha hp hplain scope hreferences
  rw [← halike.referencesTo_eq ha.linked hp.linked] at hfailures hafter
  unfold Draft.visitReferences
  refine ⟨h.moves.trans (Stylist.moves_restyleReferences hplain scope _ ha),
    h.moves'.trans (Stylist.moves_restyleReferences (s := s.silent) hplain scope _ hp),
    ⟨g, fun n hn => ?_, hafter⟩, h.seen, ?_⟩
  · rw [hg n (Nat.lt_of_lt_of_le hn (h.moves'.size_le ht₀)), hf n hn]
  · dsimp only
    rw [h.failures, hfailures]

end Steps

/-- The import is kept, trimmed or taken out in both drafts. -/
theorem Beside.stripImport {label : Text} {t₀ : Tree} {d d' : Draft} (h : Beside label t₀ d d')
    (ht₀ : t₀.Sound) {found : StyleImport} (hfound : found.node < t₀.size) :
    Beside label t₀ { d with tree := d.tree.stripImport found }
      { d' with tree := d'.tree.stripImport found } := by
  have ha := h.moves.sound ht₀
  have hp := h.moves'.sound ht₀
  obtain ⟨f, hf, halike⟩ := h.alike
  exact ⟨h.moves.trans (moves_stripImport ha found), h.moves'.trans (moves_stripImport hp found),
    ⟨f, hf, halike.stripImport ha hp found (hf _ hfound)⟩, h.seen, h.failures⟩

/-- Of two drafts and those beside them, the same ones are taken. -/
theorem Beside.ite {label : Text} {t₀ : Tree} {d d' e e' : Draft} {c : Prop} [Decidable c]
    (h : Beside label t₀ d d') (h' : Beside label t₀ e e') :
    Beside label t₀ (if c then d else e) (if c then d' else e') := by
  split
  · exact h
  · exact h'

/-- What follows the attributes is done in both drafts. -/
theorem Beside.finish {s : Stylist} {callee : Text} {t₀ : Tree} {d d' : Draft}
    (h : Beside s.annotator.label t₀ d d') (ht₀ : t₀.Sound)
    (hs : s.generate = Generator.runtimeCall callee) (settings : Settings)
    {found? : Option StyleImport} (hfound : ∀ found ∈ found?, found.node < t₀.size) :
    Beside s.annotator.label t₀ (settings.finish s found? d)
      (settings.finish s.silent found? d') := by
  unfold Settings.finish
  cases found? with
  | none => exact h
  | some found =>
    have hreferences := h.visitReferences ht₀ hs
      { allowAnywhere := settings.options.allowStyleProp, builder := some found.name } found.name
    exact .ite (hreferences.stripImport ht₀ (hfound found rfl)) hreferences

/-- All that the settings ask for is done in both drafts. -/
theorem beside_change (settings : Settings) {s : Stylist} {callee : Text} {t₀ : Tree}
    (ht₀ : t₀.Sound) (hs : s.generate = Generator.runtimeCall callee)
    (hshorthand : s.annotator.label ≠ Vocabulary.shorthand)
    (hstyle : s.annotator.label ≠ Vocabulary.style) :
    Beside s.annotator.label t₀ (settings.change s t₀) (settings.change s.silent t₀) := by
  have hattributes : ∀ attr ∈ (t₀.descendants root).filter fun id => t₀.form id = .attr,
      t₀.form attr = .attr := fun attr hattr => of_decide_eq_true (List.mem_filter.mp hattr).2
  have hstart := Beside.refl s.annotator.label t₀
  have hvisits := hstart.visits ht₀ hs hshorthand hstyle hattributes
  unfold Settings.change
  exact (Beside.ite hstart hvisits).finish ht₀ hs settings
    fun found hfound => lt_size_of_styleImport ht₀.linked hfound

/-- Two drafts have noted the same, and their trees differ in attributes called `label` at most. -/
structure SameBut (label : Text) (d d' : Draft) : Prop where
  seen : d.seen = d'.seen
  failures : d.failures = d'.failures
  tree : d.tree.SameWithout label d'.tree

theorem Beside.sameBut {label : Text} {t₀ : Tree} {d d' : Draft} (h : Beside label t₀ d d')
    (ht₀ : t₀.Sound) (hroot : t₀.attributeName root = none) : SameBut label d d' := by
  obtain ⟨f, -, halike⟩ := h.alike
  exact ⟨h.seen, h.failures, halike.sameWithout (h.moves.sound ht₀).linked (h.moves'.sound ht₀)
    ((h.moves'.attributeName_eq ht₀ ht₀.linked.nonempty).trans hroot)⟩

end Draft

/-- Two answers that are one and the same error, or results of which `same` holds. -/
inductive Alongside {ε α : Type} (same : α → α → Prop) : Except ε α → Except ε α → Prop
  | error (e : ε) : Alongside same (.error e) (.error e)
  | ok {x y : α} (h : same x y) : Alongside same (.ok x) (.ok y)

/-- What follows from the failures of a draft follows from those of a draft with the same ones. -/
theorem Draft.SameBut.outcome {label : Text} {d d' : Draft} (h : SameBut label d d') (goOn : Bool) :
    Alongside (SameBut label) (d.outcome goOn) (d'.outcome goOn) := by
  by_cases hgo : goOn = true ∨ d.failures = []
  · rw [outcome_eq_ok hgo, outcome_eq_ok (hgo.imp_right (h.failures.symm.trans ·))]
    exact .ok h
  · obtain ⟨hend, hfailed⟩ := not_or.mp hgo
    obtain rfl : goOn = false := by simpa using hend
    obtain ⟨e, rest, hfailures⟩ := List.exists_cons_of_ne_nil hfailed
    rw [outcome_of_failure hfailures, outcome_of_failure (h.failures.symm.trans hfailures)]
    exact .error e

/-- Two outputs report the same. -/
structure Output.SameReport (out out' : Output) : Prop where
  seen : out.seen = out'.seen
  diagnostics : out.diagnostics = out'.diagnostics

theorem Draft.SameBut.output {label : Text} {d d' : Draft} (h : SameBut label d d')
    (source : Text) : Output.SameReport (d.output source) (d'.output source) where
  seen := h.seen
  diagnostics := by rw [Draft.output, Draft.output, h.failures]

/-- The same settings, with annotations or without. -/
def Settings.annotating (settings : Settings) (on : Bool) : Settings :=
  { settings with debug := { settings.debug with enabled := on } }

/-- The root of a module is no attribute. -/
theorem Tree.attributeName_root {source : Text} {t : Tree} (h : ofSource source = .ok t) :
    t.attributeName root = none := by
  obtain ⟨body, -, rfl⟩ := map_eq_ok.mp h
  obtain ⟨ids, hkind, -⟩ := (ofBody_holds source body).program
  rw [attributeName, hkind]

/-- **Annotations change nothing but themselves.**  If annotations go by a name that means
nothing else, a module that can be read is compiled with them and without to the same error,
or to the same report and to trees that are the same once the annotations are erased, its
imports included. -/
theorem annotations_change_themselves {settings : Settings} {source : Text} {t₀ : Tree}
    (hread : Tree.ofSource source = .ok t₀)
    (hshorthand : settings.debug.label ≠ Vocabulary.shorthand)
    (hstyle : settings.debug.label ≠ Vocabulary.style) :
    Alongside (Draft.SameBut settings.debug.label)
        ((settings.annotating true).restyle (settings.annotating true).stylist t₀)
        ((settings.annotating false).restyle (settings.annotating false).stylist t₀) ∧
      Alongside Output.SameReport (compile (settings.annotating true) source)
        (compile (settings.annotating false) source) := by
  have ht₀ := Tree.sound_ofSource hread
  have hbeside : Draft.Beside settings.debug.label t₀
      (settings.change (settings.annotating true).stylist t₀)
      (settings.change (settings.annotating false).stylist t₀) :=
    Draft.beside_change settings (s := (settings.annotating true).stylist) ht₀ rfl hshorthand hstyle
  have hrestyle (on : Bool) :
      (settings.annotating on).restyle (settings.annotating on).stylist t₀ =
        (settings.change (settings.annotating on).stylist t₀).outcome
          settings.options.continueOnError :=
    (settings.annotating on).restyle_eq_outcome _ t₀
  have hdrafts : Alongside (Draft.SameBut settings.debug.label)
      ((settings.annotating true).restyle (settings.annotating true).stylist t₀)
      ((settings.annotating false).restyle (settings.annotating false).stylist t₀) := by
    rw [hrestyle, hrestyle]
    exact (hbeside.sameBut ht₀ (Tree.attributeName_root hread)).outcome _
  refine ⟨hdrafts, ?_⟩
  unfold compile
  generalize hon : (settings.annotating true).restyle (settings.annotating true).stylist t₀ = x at *
  generalize hoff : (settings.annotating false).restyle (settings.annotating false).stylist t₀ = y
    at *
  cases hdrafts with
  | error e =>
    rw [compileWith_failed hread hon, compileWith_failed hread hoff]
    exact .error _
  | ok h =>
    rw [compileWith_restyled hread hon, compileWith_restyled hread hoff]
    exact .ok (h.output source)

/-- Of three elements, one extends an annotation of its author, one is annotated for its
template, and one cannot be restyled. -/
theorem three_elements_annotated :
    ∃ (settings : Settings) (source : Text) (t₀ : Tree) (d d' : Draft),
      settings = { options := { continueOnError := true } } ∧
      source = Text.ofString ("import tw from 'twin.macro';<a data-tw='x' tw='p' css={y} />" ++
        "<b css=\x7btw\x60w\x60\x7d /><i tw={z} />") ∧
      Tree.ofSource source = .ok t₀ ∧
      (settings.annotating true).restyle (settings.annotating true).stylist t₀ = .ok d ∧
      (settings.annotating false).restyle (settings.annotating false).stylist t₀ = .ok d' ∧
      Draft.SameBut settings.debug.label d d' ∧ d.failures.length = 1 ∧
      d.tree.print.code ≠ d'.tree.print.code := by
  obtain ⟨settings, hsettings⟩ :
      ∃ settings : Settings, settings = { options := { continueOnError := true } } := ⟨_, rfl⟩
  obtain ⟨source, hsource⟩ : ∃ source : Text, source =
      Text.ofString ("import tw from 'twin.macro';<a data-tw='x' tw='p' css={y} />" ++
        "<b css=\x7btw\x60w\x60\x7d /><i tw={z} />") := ⟨_, rfl⟩
  have hrun : ((Tree.ofSource source).toOption.any fun t₀ =>
      ((settings.annotating true).restyle (settings.annotating true).stylist t₀).toOption.any
        fun d => ((settings.annotating false).restyle (settings.annotating false).stylist
          t₀).toOption.any fun d' =>
            d.failures.length = 1 ∧ d.tree.print.code ≠ d'.tree.print.code) = true := by
    subst hsettings hsource
    decide +kernel
  obtain ⟨t₀, hread, hrun⟩ := exists_of_any hrun
  obtain ⟨d, hd, hrun⟩ := exists_of_any hrun
  obtain ⟨d', hd', hfacts⟩ := exists_of_any hrun
  obtain ⟨hfailures, hcode⟩ := of_decide_eq_true hfacts
  obtain ⟨hdrafts, -⟩ := @annotations_change_themselves settings source t₀ hread
    (by rw [hsettings]; decide) (by rw [hsettings]; decide)
  rw [hd, hd'] at hdrafts
  cases hdrafts with
  | ok h =>
    exact ⟨settings, source, t₀, d, d', hsettings, hsource, hread, hd, hd', h, hfailures, hcode⟩

end JsxStyle
