import JsxStyle.Proofs.Handlers
import Mathlib.Data.List.Nodup

/-!
# The store stays a forest

A store begins as the tree of a module.  After that, handlers are called on it,
in any order and on any nodes, and now and then a tree is added that nothing
comes of.  Each of these keeps the store sound, so whatever was done, parent
links and child lists agree and no chain of parents closes.  The walks of
bounded length up and down then miss nothing, and a node is attached exactly
when looking down from the root finds it.

* `sound_ofSource`: the store of a module is sound;
* `Handled.sound`: so is every store that handlers lead to;
* `links_agree_of_handled`: what this says about links, lists and walks, also
  after the import of the style builder was taken out.
-/

namespace JsxStyle

namespace Tree

theorem exists_mem_of_forall₂ {α β : Type} {R : α → β → Prop} {l : List α} {l' : List β}
    (h : List.Forall₂ R l l') {a : α} (ha : a ∈ l) : ∃ b ∈ l', R a b := by
  induction h with
  | nil => exact absurd ha (by simp)
  | cons hR _ ih =>
    rcases List.mem_cons.mp ha with rfl | ha
    · exact ⟨_, List.mem_cons_self, hR⟩
    · obtain ⟨b, hb, hab⟩ := ih ha
      exact ⟨b, List.mem_cons_of_mem _ hb, hab⟩

/-- What code may contain, the program may contain. -/
theorem admits_program {inner : Form} (h : Form.Admits .fragment inner) :
    Form.Admits .program inner := by
  cases inner <;> simp_all [Form.Admits]

/-- The store of a module is sound. -/
theorem sound_ofSource {source : Text} {t : Tree} (h : ofSource source = .ok t) : t.Sound := by
  obtain ⟨body, hbody, rfl⟩ := map_eq_ok.mp h
  have hfits := Read.fits_program hbody
  have hholds := ofBody_holds source body
  generalize ofBody source body = t at *
  refine ⟨hholds.linked, fun {p c} hc => ?_⟩
  by_cases hp : p = root
  · subst hp
    obtain ⟨ids, hkind, hdepicts⟩ := hholds.program
    have hmem : c ∈ ids := by
      rw [children, hkind] at hc
      exact hc
    obtain ⟨a, ha, hca⟩ := exists_mem_of_forall₂ hdepicts hmem
    have hform : t.form root = .program := congrArg Kind.form hkind
    rw [hform, hca.form_eq]
    exact admits_program (hfits a ha).2
  · obtain ⟨a, ha, b, hb, hdepicts, -⟩ := hholds.others p hp (lt_size_of_mem_children hc)
    exact hdepicts.admits ((hfits a ha).1.1 b hb) hc

/-- The stores that handlers lead to from the store of a module, whichever of
them are called, in which order and on which nodes.  In between, trees may be
added that are not used for anything. -/
inductive Handled : Tree → Prop
  | read {source : Text} {t : Tree} (h : ofSource source = .ok t) : Handled t
  | restyled {t : Tree} (h : Handled t) {s : Stylist} (hs : s.generate.Plain) (attr : NodeId) :
      Handled (s.restyleAttribute attr t).tree
  | referred {t : Tree} (h : Handled t) {s : Stylist} (hs : s.generate.Plain) (scope : Scope)
      (reference : NodeId) : Handled (s.restyleReference scope reference t).tree
  | leftover {t : Tree} (h : Handled t) {a : Ast} (ha : a.WellShaped) :
      Handled ((graft a).run t).2

/-- Every store that handlers lead to is sound. -/
theorem Handled.sound {t : Tree} (h : Handled t) : t.Sound := by
  induction h with
  | read h => exact sound_ofSource h
  | restyled _ hs attr ih => exact (Stylist.moves_restyleAttribute ih hs attr).sound ih
  | referred _ hs scope reference ih =>
    exact (Stylist.moves_restyleReference ih hs scope reference).sound ih
  | leftover _ ha ih => exact ih.graft ha

/-- However handlers were called on the store of a module, and whether or not the
style builder was taken out of its import in the end, a node has a parent exactly
when that lists it, once and alone; no chain of parents closes and none leaves
the root; and a node is attached exactly when it is the root or found below it. -/
theorem links_agree_of_handled {t t' : Tree} (h : Handled t)
    (hend : t' = t ∨ ∃ found, t' = t.stripImport found) :
    (∀ c p, t'.parent c = some p ↔ c ∈ t'.children p) ∧
      (∀ c p, c ∈ t'.children p →
        (t'.children p).count c = 1 ∧ ∀ q, c ∈ t'.children q → q = p) ∧
      (∀ n, ¬ Relation.TransGen t'.Up n n) ∧ t'.parent root = none ∧
      (∀ n a, (a ∈ t'.ancestors n ↔ Relation.TransGen t'.Up n a) ∧
        (n ∈ t'.descendants a ↔ Relation.TransGen t'.Up n a)) ∧
      ∀ n, t'.isAttached n = true ↔ n = root ∨ n ∈ t'.descendants root := by
  have hsound : t'.Sound := by
    rcases hend with rfl | ⟨found, rfl⟩
    · exact h.sound
    · exact (moves_stripImport h.sound found).sound h.sound
  have hlinked := hsound.linked
  refine ⟨fun c p => hlinked.mem_children.symm, ?_, hlinked.not_below_self, hlinked.root_free,
    fun n a => ⟨hlinked.mem_ancestors_iff, hlinked.mem_descendants_iff⟩,
    fun n => hlinked.isAttached_iff_mem_descendants⟩
  intro c p hc
  refine ⟨List.count_eq_one_of_mem (hlinked.nodup p) hc, fun q hq => ?_⟩
  have hp := hlinked.mem_children.mp hc
  have hq' := hlinked.mem_children.mp hq
  exact Option.some.inj (hq'.symm.trans hp)

/-- A shorthand attribute is merged into the style attribute beside it, and the
statement that imports the style builder goes: both are detached then, and the
style is attached. -/
theorem links_agree_after_merge :
    ∃ t : Tree, ofSource (Text.ofString "import tw from 'm';<a css={x} tw='b' />") = .ok t ∧
      ∃ u : Tree, u = (Stylist.restyleAttribute ⟨Generator.runtimeCall (Text.ofString "f"),
        ⟨true, Text.ofString "d"⟩⟩ 6 t).tree ∧ Handled u ∧
      ∃ t' : Tree, t' = u.stripImport ⟨1, Text.ofString "tw"⟩ ∧
        (t'.parent 6 = none ∧ t'.parent 11 = some 12 ∧ t'.parent 1 = none) ∧
        (∀ c p, t'.parent c = some p ↔ c ∈ t'.children p) ∧
        ∀ n, t'.isAttached n = true ↔ n = root ∨ n ∈ t'.descendants root := by
  have hrun : ((ofSource (Text.ofString "import tw from 'm';<a css={x} tw='b' />")).toOption.any
      fun t =>
        let t' := (Stylist.restyleAttribute ⟨Generator.runtimeCall (Text.ofString "f"),
          ⟨true, Text.ofString "d"⟩⟩ 6 t).tree.stripImport ⟨1, Text.ofString "tw"⟩
        t'.parent 6 = none ∧ t'.parent 11 = some 12 ∧ t'.parent 1 = none) = true := by
    decide +kernel
  obtain ⟨t, hread, hlinks⟩ := exists_of_any hrun
  have hplain : (Generator.runtimeCall (Text.ofString "f")).Plain :=
    fun _ _ h => Or.inl ⟨_, h⟩
  have hhandled := (Handled.read hread).restyled (s := ⟨Generator.runtimeCall (Text.ofString "f"),
    ⟨true, Text.ofString "d"⟩⟩) hplain 6
  have hagree := links_agree_of_handled hhandled (Or.inr ⟨⟨1, Text.ofString "tw"⟩, rfl⟩)
  exact ⟨t, hread, _, rfl, hhandled, _, rfl, of_decide_eq_true hlinks, hagree.1,
    hagree.2.2.2.2.2⟩

end Tree

end JsxStyle
