import JsxStyle.Compile
import JsxStyle.Proofs.Forest

/-!
# What a missing mark promises

Printing copies a node from the source when it is not marked, without a look at
what stands below it.  This is right because marks rise: where a node is marked,
so is its parent.  An edit marks the node it changes and everything above it in
the store it leaves behind, a node that is added is marked from the start, and a
node that gets another place in the source is marked already.  So a node without
a mark is one that was read, with everything below it as it was read.

* `Faithful.move`: every move keeps marks rising and unmarked nodes as they were;
* `Faithful.below`: below an unmarked node nothing has changed;
* `Visits.moves`: between two handlers of a compilation lie moves;
* `unmarked_as_read`: what holds of an unmarked node in all stores of a compilation.
-/

namespace JsxStyle

namespace Tree

/-- The store `t` came from `t₀` by changes that are all marked: marks rise to
the parent, nodes that are not in `t₀` are marked, and those of `t₀` that are not
marked have kept kind and place. -/
structure Faithful (t₀ t : Tree) : Prop where
  source : t.source = t₀.source
  size_le : t₀.size ≤ t.size
  rises : ∀ {c p : NodeId}, t.parent c = some p → t.dirty c = true → t.dirty p = true
  added : ∀ n, t₀.size ≤ n → n < t.size → t.dirty n = true
  kept : ∀ n < t₀.size, t.dirty n = false → t.kind n = t₀.kind n ∧ t.span n = t₀.span n

namespace Faithful

variable {t₀ t t' : Tree}

/-- Marks that are set on a node and on everything above it rise. -/
theorem rises_of_mark (ht : t'.Linked) {above : NodeId} {size : Nat} (hsize : t'.size = size)
    {mark : NodeId → Bool}
    (hdirty : ∀ n, t'.dirty n = (mark n || decide (n ∈ above :: t'.ancestors above ∧ n < size)))
    (hmark : ∀ {c p : NodeId}, t'.parent c = some p → mark c = true →
      mark p = true ∨ p = above) {c p : NodeId}
    (hp : t'.parent c = some p) (hc : t'.dirty c = true) : t'.dirty p = true := by
  have hlt : p < size := hsize ▸ ht.parent_lt_size hp
  rw [hdirty, Bool.or_eq_true, decide_eq_true_eq] at hc
  rw [hdirty, Bool.or_eq_true, decide_eq_true_eq]
  rcases hc with hc | ⟨hc, -⟩
  · rcases hmark hp hc with h | rfl
    · exact Or.inl h
    · exact Or.inr ⟨List.mem_cons_self, hlt⟩
  · refine Or.inr ⟨List.mem_cons_of_mem _ ?_, hlt⟩
    -- The parent of a node on the chain is the next one on it.
    rcases List.mem_cons.mp hc with rfl | hc
    · rw [ht.ancestors_eq_cons hp]
      exact List.mem_cons_self
    · rw [ht.mem_ancestors_iff] at hc ⊢
      exact hc.tail hp

/-- An edit marks what it changes. -/
theorem editAt (h : Faithful t₀ t) (ht' : t'.Linked) {above : NodeId} {k : Kind NodeId}
    {up : NodeId → Option NodeId} (he : EditAt t t' above k up) (hlt : above < t.size)
    (hup : ∀ {c p : NodeId}, up c = some p → t.parent c = some p ∨ p = above) :
    Faithful t₀ t' where
  source := he.source.trans h.source
  size_le := he.size ▸ h.size_le
  rises {c p} hp hc := by
    refine rises_of_mark ht' he.size he.dirty (fun {c p} hp hc => ?_) hp hc
    rw [he.parent] at hp
    rcases hup hp with hp | hp
    · exact Or.inl (h.rises hp hc)
    · exact Or.inr hp
  added n hn hn' := by
    rw [he.dirty, h.added n hn (he.size ▸ hn')]
    rfl
  kept n hn hclean := by
    rw [he.dirty, Bool.or_eq_false_iff, decide_eq_false_iff_not] at hclean
    have hne : n ≠ above := by
      intro heq
      subst heq
      exact hclean.2 ⟨List.mem_cons_self, hlt⟩
    rw [he.kind, if_neg hne, he.span]
    exact h.kept n hn hclean.1

/-- Putting an expression in an array marks what it changes. -/
theorem wrap (h : Faithful t₀ t) (ht : t.Sound) {old new above : NodeId}
    (hold : t.parent old = some above) (hfree : t.Free new above)
    (hsound : (t.replaceWith old fun t => t.alloc (.array [old, new]) none).2.Sound) :
    Faithful t₀ (t.replaceWith old fun t => t.alloc (.array [old, new]) none).2 := by
  obtain ⟨hsize, hsource, hkind, hparent, hspan, hdirty⟩ :=
    editAt_wrap ht.linked hold hfree.lt_size
  generalize (t.replaceWith old fun t => t.alloc (.array [old, new]) none).2 = t' at *
  have hlt := ht.linked.parent_lt_size hold
  refine ⟨hsource.trans h.source, ?_, fun {c p} hp hc => ?_, fun n hn hn' => ?_,
    fun n hn hclean => ?_⟩
  · rw [hsize]
    exact Nat.le_succ_of_le h.size_le
  · refine rises_of_mark hsound.linked hsize hdirty (fun {c p} hp hc => ?_) hp hc
    rw [hparent] at hp
    by_cases hcs : c = t.size
    · rw [if_pos hcs] at hp
      exact Or.inr (Option.some.inj hp).symm
    · rw [if_neg hcs] at hp hc
      by_cases hco : c = old ∨ c = new
      · rw [if_pos hco] at hp
        rw [if_pos (Option.some.inj hp).symm]
        exact Or.inl rfl
      · rw [if_neg hco] at hp
        rw [if_neg (Nat.ne_of_lt (ht.linked.parent_lt_size hp))]
        exact Or.inl (h.rises hp hc)
  · rw [hdirty, Bool.or_eq_true]
    by_cases hns : n = t.size
    · exact Or.inl (if_pos hns)
    · rw [if_neg hns]
      have hlt' : n < t.size := by
        rw [hsize] at hn'
        exact Nat.lt_of_le_of_ne (Nat.le_of_lt_succ hn') hns
      exact Or.inl (h.added n hn hlt')
  · have hns : n ≠ t.size := Nat.ne_of_lt (Nat.lt_of_lt_of_le hn h.size_le)
    rw [hdirty, if_neg hns, Bool.or_eq_false_iff, decide_eq_false_iff_not] at hclean
    have hne : n ≠ above := by
      intro heq
      subst heq
      exact hclean.2 ⟨List.mem_cons_self, Nat.lt_succ_of_lt hlt⟩
    rw [hkind, if_neg hns, if_neg hne, hspan, if_neg hns]
    exact h.kept n hn hclean.1

/-- Nodes are added that are marked, each of them below other added ones at most. -/
theorem grow (h : Faithful t₀ t) (hsource : t'.source = t.source) (hsize : t.size ≤ t'.size)
    (hold : ∀ n < t.size, t'.kind n = t.kind n ∧ t'.span n = t.span n ∧ t'.dirty n = t.dirty n)
    (hnew : ∀ n, t.size ≤ n → n < t'.size → t'.dirty n = true) (ht' : t'.Linked)
    (hup : ∀ {c p : NodeId}, t'.parent c = some p → p < t.size → t.parent c = some p) :
    Faithful t₀ t' where
  source := hsource.trans h.source
  size_le := Nat.le_trans h.size_le hsize
  rises {c p} hp hc := by
    by_cases hlt : p < t.size
    · have hp' := hup hp hlt
      rw [(hold c (lt_size_of_parent hp')).2.2] at hc
      rw [(hold p hlt).2.2]
      exact h.rises hp' hc
    · exact hnew p (Nat.le_of_not_lt hlt) (ht'.parent_lt_size hp)
  added n hn hn' := by
    by_cases hlt : n < t.size
    · rw [(hold n hlt).2.2]
      exact h.added n hn hlt
    · exact hnew n (Nat.le_of_not_lt hlt) hn'
  kept n hn hclean := by
    obtain ⟨hkind, hspan, hdirty⟩ := hold n (Nat.lt_of_lt_of_le hn h.size_le)
    rw [hkind, hspan]
    exact h.kept n hn (hdirty ▸ hclean)

/-- Grafting trees without places marks what it adds. -/
theorem graft (h : Faithful t₀ t) (ht : t.Sound) {a : Ast}
    (hplace : a.Every fun b => b.span = none) : Faithful t₀ ((Tree.graft a).run t).2 := by
  have hg := graft_spec a t ht.linked
  refine h.grow hg.source hg.size_le (fun n hn => ?_) (fun n hn hn' => ?_) hg.linked
    fun {c p} hp hlt => ?_
  · rw [kind, span, dirty, hg.old n hn]
    exact ⟨rfl, rfl, rfl⟩
  · obtain ⟨b, hb, d, hd, -, hdirty⟩ := hg.added n hn hn'
    obtain rfl : b = a := by simpa using hb
    rw [hdirty, hplace d hd]
    rfl
  · have hmem := hg.linked.mem_children.mpr hp
    rw [children, kind, hg.old p hlt] at hmem
    exact ht.linked.mem_children.mp hmem

/-- Allocating a node without a place marks it. -/
theorem alloc (h : Faithful t₀ t) (ht : t.Sound) {kind : Kind NodeId}
    (ht' : (Tree.alloc kind none t).2.Linked) : Faithful t₀ (Tree.alloc kind none t).2 := by
  have hsize : (Tree.alloc kind none t).2.size = t.size + 1 := size_alloc ..
  refine h.grow (source_alloc ..) (by rw [hsize]; exact Nat.le_succ _) (fun n hn => ?_)
    (fun n hn hn' => ?_) ht' fun {c p} hp hlt => ?_
  · rw [kind_alloc, span_alloc, dirty_alloc, if_neg (Nat.ne_of_lt hn), if_neg (Nat.ne_of_lt hn),
      if_neg (Nat.ne_of_lt hn)]
    exact ⟨rfl, rfl, rfl⟩
  · have hself : n = t.size := by
      rw [hsize] at hn'
      exact Nat.le_antisymm (Nat.le_of_lt_succ hn') hn
    rw [dirty_alloc, if_pos hself]
    rfl
  · have hmem := ht'.mem_children.mpr hp
    rw [children, kind_alloc, if_neg (Nat.ne_of_lt hlt)] at hmem
    exact ht.linked.mem_children.mp hmem

/-- A marked node may get a place. -/
theorem place (h : Faithful t₀ t) {id : NodeId} (s : Option Span) (hdirty : t.dirty id = true) :
    Faithful t₀ (t.update id ({ · with span := s })) where
  source := h.source
  size_le := by rw [size_update]; exact h.size_le
  rises {c p} hp hc := by
    rw [parent_place] at hp
    rw [dirty_place] at hc ⊢
    exact h.rises hp hc
  added n hn hn' := by
    rw [dirty_place]
    exact h.added n hn (size_update t id _ ▸ hn')
  kept n hn hclean := by
    rw [dirty_place] at hclean
    have hne : n ≠ id := by
      intro heq
      subst heq
      exact absurd (hdirty.symm.trans hclean) (by simp)
    rw [kind_place, span, node_update, if_neg fun hmem => hne hmem.1]
    exact h.kept n hn hclean

/-- Every move keeps marks rising and unmarked nodes as they were. -/
theorem move (h : Faithful t₀ t) (ht : t.Sound) (hmove : Move t t') : Faithful t₀ t' := by
  have hsound := hmove.sound ht
  cases hmove with
  | graft a hshape hplace => exact h.graft ht hplace
  | alloc hfree hnodup hadm => exact h.alloc ht hsound.linked
  | remove hid hitems =>
    refine h.editAt hsound.linked (editAt_remove ht.linked hid) (ht.linked.parent_lt_size hid)
      fun {c p} hp => ?_
    split at hp
    · exact absurd hp (by simp)
    · exact Or.inl hp
  | replace hold hfree hadm =>
    refine h.editAt hsound.linked (editAt_replace ht.linked hold hfree.lt_size)
      (ht.linked.parent_lt_size hold) fun {c p} hp => ?_
    split at hp
    · exact Or.inr (Option.some.inj hp).symm
    · split at hp
      · exact absurd hp (by simp)
      · exact Or.inl hp
  | wrap hold hfree hloose hnew => exact h.wrap ht hold hfree hsound
  | insertAfter hins habove hfree hadm =>
    obtain ⟨above, items, habove', hitems, hmem, rfl⟩ := insertAfter_eq_some hins
    have hlt := ht.linked.parent_lt_size habove'
    refine h.editAt hsound.linked (editAt_setItems hlt hfree.lt_size _) hlt fun {c p} hp => ?_
    split at hp
    · exact Or.inr (Option.some.inj hp).symm
    · exact Or.inl hp
  | append happ hholder hfree hadm =>
    obtain ⟨items, hitems, rfl⟩ := append_eq_some happ
    refine h.editAt hsound.linked (editAt_setItems hholder hfree.lt_size _) hholder
      fun {c p} hp => ?_
    split at hp
    · exact Or.inr (Option.some.inj hp).symm
    · exact Or.inl hp
  | place s hdirty => exact h.place s hdirty

theorem moves (h : Faithful t₀ t) (ht : t.Sound) (hmoves : Moves t t') : Faithful t₀ t' := by
  induction hmoves with
  | refl => exact h
  | tail hfirst hlast ih => exact ih.move (Moves.sound hfirst ht) hlast

/-- What stands below an unmarked node is unmarked. -/
theorem clean_of_within (h : Faithful t₀ t) {m n : NodeId} (hmn : t.Within m n)
    (hclean : t.dirty n = false) : t.dirty m = false := by
  induction hmn using Relation.ReflTransGen.head_induction_on with
  | refl => exact hclean
  | head hup _ ih =>
    rw [← Bool.not_eq_true]
    intro hdirty
    exact absurd ((h.rises hup hdirty).symm.trans ih) (by simp)

/-- A node that is not marked was there before. -/
theorem lt_size_of_clean (h : Faithful t₀ t) {n : NodeId} (hn : n < t.size)
    (hclean : t.dirty n = false) : n < t₀.size := by
  rcases Nat.lt_or_ge n t₀.size with hlt | hge
  · exact hlt
  · exact absurd ((h.added n hge hn).symm.trans hclean) (by simp)

/-- What stands at or below an unmarked node is what stood there. -/
theorem within_iff (h : Faithful t₀ t) (ht₀ : t₀.Linked) (ht : t.Linked) {n : NodeId}
    (hclean : t.dirty n = false) (m : NodeId) :
    t.Within m n ↔ t₀.Within m n := by
  have hchildren {p : NodeId} (hp : p < t.size) (hpclean : t.dirty p = false) :
      t.children p = t₀.children p :=
    congrArg Kind.children (h.kept p (h.lt_size_of_clean hp hpclean) hpclean).1
  constructor
  · intro hmn
    induction hmn using Relation.ReflTransGen.head_induction_on with
    | refl => exact .refl
    | head hup hrest ih =>
      have hp := ht.parent_lt_size hup
      rw [Up, ← ht.mem_children, hchildren hp (h.clean_of_within hrest hclean),
        ht₀.mem_children] at hup
      exact .head hup ih
  · intro hmn
    induction hmn using Relation.ReflTransGen.head_induction_on with
    | refl => exact .refl
    | @head c p hup hrest ih =>
      have hpclean := h.clean_of_within ih hclean
      have hp : p < t.size := Nat.lt_of_lt_of_le (ht₀.parent_lt_size hup) h.size_le
      rw [Up, ← ht₀.mem_children, ← hchildren hp hpclean, ht.mem_children] at hup
      exact .head hup ih

/-- Below an unmarked node nothing has changed. -/
theorem below (h : Faithful t₀ t) {m n : NodeId} (hn : n < t.size) (hclean : t.dirty n = false)
    (hmn : t.Within m n) :
    m < t₀.size ∧ t.dirty m = false ∧ t.kind m = t₀.kind m ∧ t.span m = t₀.span m := by
  have hm : m < t.size := by
    rcases Relation.ReflTransGen.cases_head hmn with rfl | ⟨p, hp, -⟩
    · exact hn
    · exact lt_size_of_parent hp
  have hmclean := h.clean_of_within hmn hclean
  have hlt := h.lt_size_of_clean hm hmclean
  exact ⟨hlt, hmclean, h.kept m hlt hmclean⟩

end Faithful

/-- An unmarked node is printed by copying its place. -/
theorem printNode_of_clean {t : Tree} {n : NodeId} {s : Span} (hn : n < t.size)
    (hclean : t.dirty n = false) (hspan : t.span n = some s) :
    t.printNode n = Printed.ofText (s.of t.source) := by
  obtain ⟨k, hk⟩ : ∃ k, t.size = k + 1 := Nat.exists_eq_add_one.mpr (Nat.zero_lt_of_lt hn)
  have hdirty : (t.node n).dirty = false := hclean
  rw [printNode, hk, printWithin, hspan, hdirty]

/-- Every node of a module has a place and no mark. -/
theorem placed_ofSource {source : Text} {t : Tree} (h : ofSource source = .ok t) :
    t.source = source ∧ ∀ n < t.size, t.dirty n = false ∧ (t.span n).isSome := by
  obtain ⟨body, hbody, rfl⟩ := map_eq_ok.mp h
  have hfits := Read.fits_program hbody
  have hholds := ofBody_holds source body
  generalize ofBody source body = t at *
  refine ⟨hholds.source_eq, fun n hn => ?_⟩
  by_cases hroot : n = root
  · rw [hroot, hholds.root_clean, hholds.root_span]
    exact ⟨rfl, rfl⟩
  · obtain ⟨a, ha, b, hb, hdepicts, hdirty⟩ := hholds.others n hroot hn
    have hplaced : b.span.isSome := ((hfits a ha).1.2 b hb).1
    have hspan : b.span = t.span n := by
      cases hdepicts
      rfl
    rw [hdirty, ← hspan]
    exact ⟨by simpa using hplaced, hplaced⟩

/-- A module that was read is faithful to itself. -/
theorem faithful_ofSource {source : Text} {t : Tree} (h : ofSource source = .ok t) :
    Faithful t t where
  source := rfl
  size_le := Nat.le_refl _
  rises hp hc := by
    rw [((placed_ofSource h).2 _ (lt_size_of_parent hp)).1] at hc
    exact absurd hc (by simp)
  added n hn hn' := absurd hn' (Nat.not_lt.mpr hn)
  kept _ _ _ := ⟨rfl, rfl⟩

end Tree

namespace Draft

open JsxStyle.Tree

variable {s : Stylist}

/-- What is reported does not change the store. -/
theorem tree_of_report {goOn : Bool} {d d' : Draft} {e : StyleError}
    (h : d.report goOn e = .ok d') : d'.tree = d.tree := by
  unfold report at h
  split at h
  · rw [← Except.ok.inj h]
  · exact absurd h (by simp)

/-- Reporting failures leaves the tree alone. -/
theorem tree_of_reports {goOn : Bool} {es : List StyleError} {d d' : Draft}
    (h : es.foldlM (report goOn) d = .ok d') : d'.tree = d.tree := by
  induction es generalizing d with
  | nil => rw [← pure_eq_ok.mp h]
  | cons e rest ih =>
    rw [List.foldlM_cons] at h
    obtain ⟨next, hnext, h⟩ := bind_eq_ok.mp h
    rw [ih h, tree_of_report hnext]

/-- Restyling an attribute is made of moves. -/
theorem moves_restyleAttribute (hs : s.generate.Plain) {goOn : Bool} {d d' : Draft} {attr : NodeId}
    (hd : d.tree.Sound) (h : d.restyleAttribute goOn s attr = .ok d') : Moves d.tree d'.tree := by
  unfold restyleAttribute at h
  split at h
  · have hmoves := Stylist.moves_restyleAttribute hd hs attr
    dsimp only at h
    split at h
    · rw [← Except.ok.inj h]
      exact hmoves
    · rw [tree_of_report h]
      exact hmoves
  · rw [← Except.ok.inj h]
    exact .refl

/-- Restyling one attribute after the other makes moves. -/
theorem moves_foldlM (hs : s.generate.Plain) {goOn : Bool} {attributes : List NodeId}
    {d d' : Draft} (hd : d.tree.Sound)
    (h : attributes.foldlM (restyleAttribute goOn s) d = .ok d') : Moves d.tree d'.tree := by
  induction attributes generalizing d with
  | nil =>
    rw [← pure_eq_ok.mp h]
    exact .refl
  | cons attr rest ih =>
    rw [List.foldlM_cons] at h
    obtain ⟨next, hnext, h⟩ := bind_eq_ok.mp h
    have hmoves := moves_restyleAttribute hs hd hnext
    exact hmoves.trans (ih (hmoves.sound hd) h)

end Draft

/-- Restyling one reference after the other makes moves. -/
theorem Stylist.moves_restyleReferences {s : Stylist} (hs : s.generate.Plain) (scope : Scope)
    (references : List NodeId) {t : Tree} (ht : t.Sound) :
    Tree.Moves t (s.restyleReferences scope references t).2 := by
  induction references generalizing t with
  | nil => exact .refl
  | cons reference rest ih =>
    have hmoves := moves_restyleReference ht hs scope reference
    exact hmoves.trans (ih (hmoves.sound ht))

namespace Tree

/-- The stores that a compilation of `t` goes through: those between two
attributes, those between two references, and the one that is printed. -/
inductive Visits (settings : Settings) (s : Stylist) (t : Tree) : Tree → Prop
  | attributes {done todo : List NodeId} {d : Draft}
      (hsplit : (t.descendants root).filter (fun id => t.form id = .attr) = done ++ todo)
      (hrun :
        done.foldlM (Draft.restyleAttribute settings.options.continueOnError s) { tree := t } =
        .ok d) : Visits settings s t d.tree
  | references {found : StyleImport} {d : Draft} {done todo : List NodeId}
      (hfound : t.styleImport? settings.options.importSources = some found)
      (hrun : Draft.restyleAttributes settings.options.continueOnError s { tree := t } = .ok d)
      (hsplit : d.tree.referencesTo found.name = done ++ todo) :
      Visits settings s t (s.restyleReferences
        { allowAnywhere := settings.options.allowStyleProp, builder := some found.name } done
        d.tree).2
  | finished {d : Draft} (hrun : settings.restyle s t = .ok d) : Visits settings s t d.tree

/-- What a compilation that succeeds has done: the attributes, unless there would
have to be an import, then the references and the import, if there is one. -/
theorem restyle_cases {settings : Settings} {s : Stylist} {t : Tree} {d : Draft}
    (h : settings.restyle s t = .ok d) :
    ∃ d₁ : Draft, (d₁ = { tree := t } ∨
        Draft.restyleAttributes settings.options.continueOnError s { tree := t } = .ok d₁) ∧
      (d = d₁ ∨ ∃ found d₂, Draft.restyleReferences settings.options.continueOnError s
          { allowAnywhere := settings.options.allowStyleProp, builder := some found.name }
          found.name d₁ = .ok d₂ ∧
        (d = d₂ ∨ d = { d₂ with tree := d₂.tree.stripImport found })) := by
  unfold Settings.restyle at h
  dsimp only at h
  have hrest {found : StyleImport} {d₁ : Draft} (h : (do
      let d₂ ← d₁.restyleReferences settings.options.continueOnError s
        { allowAnywhere := settings.options.allowStyleProp, builder := some found.name } found.name
      return if settings.options.stripImport then { d₂ with tree := d₂.tree.stripImport found }
        else d₂) = Except.ok d) :
      ∃ d₂, Draft.restyleReferences settings.options.continueOnError s
          { allowAnywhere := settings.options.allowStyleProp, builder := some found.name }
          found.name d₁ = .ok d₂ ∧
        (d = d₂ ∨ d = { d₂ with tree := d₂.tree.stripImport found }) := by
    obtain ⟨d₂, hd₂, h⟩ := bind_eq_ok.mp h
    refine ⟨d₂, hd₂, ?_⟩
    rw [← pure_eq_ok.mp h]
    split
    · exact Or.inr rfl
    · exact Or.inl rfl
  split at h
  · refine ⟨{ tree := t }, Or.inl rfl, ?_⟩
    obtain ⟨d₁, hd₁, h⟩ := bind_eq_ok.mp h
    obtain rfl := pure_eq_ok.mp hd₁
    split at h
    · exact Or.inl (pure_eq_ok.mp h).symm
    · exact Or.inr ⟨_, hrest h⟩
  · obtain ⟨d₁, hd₁, h⟩ := bind_eq_ok.mp h
    refine ⟨d₁, Or.inr hd₁, ?_⟩
    split at h
    · exact Or.inl (pure_eq_ok.mp h).symm
    · exact Or.inr ⟨_, hrest h⟩

/-- A compilation changes the store by moves. -/
theorem moves_restyle {settings : Settings} {s : Stylist} (hs : s.generate.Plain) {t : Tree}
    (ht : t.Sound) {d : Draft} (h : settings.restyle s t = .ok d) : Moves t d.tree := by
  obtain ⟨d₁, hattributes, hrest⟩ := restyle_cases h
  have hfirst : Moves t d₁.tree := by
    rcases hattributes with rfl | hattributes
    · exact .refl
    · exact Draft.moves_foldlM hs ht hattributes
  rcases hrest with rfl | ⟨found, d₂, hreferences, hend⟩
  · exact hfirst
  · have hsecond : Moves t d₂.tree := by
      rw [Draft.tree_of_reports hreferences]
      exact hfirst.trans (Stylist.moves_restyleReferences hs _ _ (hfirst.sound ht))
    rcases hend with rfl | rfl
    · exact hsecond
    · exact hsecond.trans (moves_stripImport (hsecond.sound ht) _)

theorem Visits.moves {settings : Settings} {s : Stylist} (hs : s.generate.Plain) {t t' : Tree}
    (ht : t.Sound) (h : Visits settings s t t') : Moves t t' := by
  cases h with
  | attributes hsplit hrun => exact Draft.moves_foldlM hs ht hrun
  | references hfound hrun hsplit =>
    have hfirst : Moves t _ := Draft.moves_foldlM hs ht hrun
    exact hfirst.trans (Stylist.moves_restyleReferences hs _ _ (hfirst.sound ht))
  | finished hrun => exact moves_restyle hs ht hrun

/-- In every store of a compilation, an attached node without a mark is a node of
the module as it was read; it has the same nodes below it, each with the kind, the
children and the place it was read with; and it is printed as its part of the source. -/
theorem unmarked_as_read {settings : Settings} {s : Stylist} (hs : s.generate.Plain)
    {source : Text} {t₀ t : Tree} (hread : ofSource source = .ok t₀)
    (hvisit : Visits settings s t₀ t) {n : NodeId} (hn : t.isAttached n = true)
    (hclean : t.dirty n = false) :
    n < t₀.size ∧ (∀ m, t.Within m n ↔ t₀.Within m n) ∧
      (∀ m, t.Within m n → m < t₀.size ∧ t.kind m = t₀.kind m ∧ t.children m = t₀.children m ∧
        t.span m = t₀.span m) ∧
      ∃ place, t₀.span n = some place ∧ t.printNode n = Printed.ofText (place.of source) := by
  have ht₀ := sound_ofSource hread
  have hmoves := hvisit.moves hs ht₀
  have ht := hmoves.sound ht₀
  have hfaithful := (faithful_ofSource hread).moves ht₀ hmoves
  obtain ⟨hsource, hplaced⟩ := placed_ofSource hread
  have hlt : n < t.size := by
    rcases Relation.ReflTransGen.cases_head (ht.linked.isAttached_iff.mp hn) with rfl | ⟨p, hp, -⟩
    · exact ht.linked.nonempty
    · exact lt_size_of_parent hp
  obtain ⟨hlt₀, -, -, hspan⟩ := hfaithful.below hlt hclean .refl
  obtain ⟨place, hplace⟩ := Option.isSome_iff_exists.mp (hplaced n hlt₀).2
  refine ⟨hlt₀, hfaithful.within_iff ht₀.linked ht.linked hclean, fun m hm => ?_, place, hplace, ?_⟩
  · obtain ⟨hmlt, -, hkind, hmspan⟩ := hfaithful.below hlt hclean hm
    exact ⟨hmlt, hkind, congrArg Kind.children hkind, hmspan⟩
  · rw [printNode_of_clean hlt hclean (hspan.trans hplace), hfaithful.source, hsource]

/-- The expression that a style attribute had is wrapped in an array and stays
unmarked: it is still printed as it was written. -/
theorem wrapped_expression_as_read :
    ∃ (t₀ : Tree) (d : Draft), ofSource (Text.ofString "<p>{y}<a css={x} tw='b' /></p>") = .ok t₀ ∧
      Settings.restyle {} (Settings.stylist {}) t₀ = .ok d ∧
      d.tree.parent 4 = some 15 ∧ d.tree.dirty 15 = true ∧ d.tree.isAttached 4 = true ∧
      d.tree.dirty 4 = false ∧ d.tree.kind 4 = t₀.kind 4 ∧
      ∃ place, t₀.span 4 = some place ∧ d.tree.printNode 4 =
        Printed.ofText (place.of (Text.ofString "<p>{y}<a css={x} tw='b' /></p>")) := by
  have hrun : ((ofSource (Text.ofString "<p>{y}<a css={x} tw='b' /></p>")).toOption.any fun t₀ =>
      (Settings.restyle {} (Settings.stylist {}) t₀).toOption.any fun d =>
        d.tree.parent 4 = some 15 ∧ d.tree.dirty 15 = true ∧ d.tree.isAttached 4 = true ∧
          d.tree.dirty 4 = false) = true := by
    decide +kernel
  obtain ⟨t₀, hread, hrun⟩ := exists_of_any hrun
  obtain ⟨d, hrestyle, hfacts⟩ := exists_of_any hrun
  obtain ⟨hparent, hmarked, hattached, hclean⟩ := of_decide_eq_true hfacts
  have hplain : (Settings.stylist {}).generate.Plain := fun _ _ h => Or.inl ⟨_, h⟩
  obtain ⟨-, -, hbelow, hprint⟩ :=
    unmarked_as_read hplain hread (.finished hrestyle) hattached hclean
  exact ⟨t₀, d, hread, hrestyle, hparent, hmarked, hattached, hclean, (hbelow 4 .refl).2.1, hprint⟩

/-- The opening tags of a module in the order of the source, each with its name and the
names of its attributes. -/
def tags (t : Tree) : List (Text × List Text) :=
  (t.descendants root).filterMap fun id =>
    match t.kind id with
    | .opening name attributes _ => some (name, attributes.filterMap t.attributeName)
    | _ => none

/-- What is marked is written anew, and need not be read again as what it was: the line
break behind the expression of these braces is not written, and the comment that it ended
takes the rest of the tag along. -/
theorem marked_not_reread :
    ¬ ∀ (settings : Settings) (source : Text) (t₀ : Tree) (d : Draft),
      Scan.identLength settings.generator.callee = settings.generator.callee.length →
      settings.generator.callee ≠ [] →
      Scan.nameLength settings.debug.label = settings.debug.label.length →
      settings.debug.label ≠ [] →
      ofSource source = .ok t₀ → settings.restyle settings.stylist t₀ = .ok d →
      ∃ t, ofSource d.tree.print.code = .ok t ∧ t.tags = d.tree.tags := by
  intro h
  have hrun : ((ofSource (Text.ofString "<a css=\x7bx // c\n\x7d tw='b' />")).toOption.any fun t₀ =>
      (Settings.restyle {} (Settings.stylist {}) t₀).toOption.any fun d =>
        (ofSource d.tree.print.code).toOption.all fun t => t.tags ≠ d.tree.tags) = true := by
    decide +kernel
  obtain ⟨t₀, hread, hrun⟩ := exists_of_any hrun
  obtain ⟨d, hrestyle, hdiffers⟩ := exists_of_any hrun
  obtain ⟨t, ht, htags⟩ :=
    h {} _ t₀ d (by decide) (by decide) (by decide) (by decide) hread hrestyle
  rw [ht] at hdiffers
  exact of_decide_eq_true hdiffers htags

end Tree

end JsxStyle
