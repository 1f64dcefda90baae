import JsxStyle.Proofs.Lasting

/-!
# Mappings are exact

A call that has come in the place of a template stays as it was made, since later changes
write to nodes of other kinds.  So at the end of a compilation each replacement is attached,
is touched, and has the place of what it has replaced, and the mappings list it.

* `placed_restyleReference`: a template that is known in advance makes way for a call;
* `kept_restyle`: a compilation keeps what stays in a module;
* `mapsTo_of_becomesStyle`, `mapsTo_of_becomesCall`: replacements are recorded with the
  places of what they have replaced;
* `mappings_exact`: the mappings are those of the touched nodes that have a place.
-/

namespace JsxStyle

namespace Tree

variable {t u t' : Tree} {callee classes : Text} {n : NodeId}

/-- Changes that keep what lasts and leave calls with their classes as they are. -/
structure Settled (t t' : Tree) : Prop where
  kept : Kept t t'
  calls : ∀ {n : NodeId} {callee classes : Text}, t.IsCall callee classes n →
    t'.IsCall callee classes n

theorem Settled.refl (t : Tree) : Settled t t :=
  ⟨.refl t, id⟩

theorem Settled.trans (h : Settled t u) (h' : Settled u t') (ht : t.Sound) : Settled t t' :=
  ⟨h.kept.trans h'.kept ht, fun hcall => h'.calls (h.calls hcall)⟩

/-- A call is as it was if nothing changes but nodes that cannot be part of it. -/
theorem IsCall.keep (h : t.IsCall callee classes n)
    (hspan : ∀ m < t.size, m ≠ n → t'.span m = t.span m)
    (hkind : ∀ m, (t.form m).Steady → (∀ c ∈ t.children m, (t.form c).Steady) →
      t'.kind m = t.kind m) : t'.IsCall callee classes n := by
  obtain ⟨name, argument, hn, hname, hargument, hspans⟩ := h
  have hnameform : (t.form name).Steady := by
    rw [form, hname]
    exact trivial
  have hargumentform : (t.form argument).Steady := by
    rw [form, hargument]
    exact trivial
  have hlt {m : NodeId} (hm : (t.form m).Steady) : m < t.size :=
    lt_size_of_form fun hform => hm.ne id hform
  refine ⟨name, argument, ?_, ?_, ?_, ?_⟩
  · rw [hkind n ?_ ?_, hn]
    · rw [form, hn]
      exact trivial
    · rw [children, hn]
      intro c hc
      rcases List.mem_cons.mp hc with rfl | hc
      · exact hnameform
      · obtain rfl := List.mem_singleton.mp hc
        exact hargumentform
  · rw [hkind name hnameform (by simp [children, hname, Kind.children]), hname]
  · rw [hkind argument hargumentform (by simp [children, hargument, Kind.children]), hargument]
  · have hne {m : NodeId} {k : Kind NodeId} (hm : t.kind m = k) (hform : k.form ≠ .call) :
        m ≠ n := by
      rintro rfl
      exact hform (congrArg Kind.form (hm.symm.trans hn))
    rw [hspan name (hlt hnameform) (hne hname (by simp [Kind.form])),
      hspan argument (hlt hargumentform) (hne hargument (by simp [Kind.form]))]
    exact hspans

/-- A node that shows a tree, with the trees that its children show. -/
theorem Depicts.kind_eq {s : Option Span} {k : Kind Ast} (h : t.Depicts n (.node s k)) :
    t.span n = s ∧ ∃ z : Kind (Ast × NodeId), t.kind n = z.map Prod.snd ∧ k = z.map Prod.fst ∧
      ∀ p ∈ z.children, t.Depicts p.2 p.1 := by
  generalize hk : Ast.node s k = a at h
  cases h with
  | node z hlt hkind hbelow =>
    obtain ⟨rfl, rfl⟩ := Ast.node.inj hk
    exact ⟨rfl, z, hkind, rfl, hbelow⟩

/-- What a generator that leaves classes to the running program makes is such a call. -/
theorem isCall_of_depicts {ast : Ast} (h : t.Depicts n ast)
    (hast : Generator.runtimeCall callee classes = .ok ast) : t.IsCall callee classes n := by
  obtain rfl := Except.ok.inj hast
  obtain ⟨-, z, hn, hz, hbelow⟩ := Depicts.kind_eq h
  obtain ⟨head, arguments, rfl⟩ : ∃ head arguments, z = .call head arguments := by
    cases z <;> simp [Kind.map] at hz ⊢
  obtain ⟨hhead, hsingle⟩ := Kind.call.inj hz
  obtain ⟨argument, rfl, hargument⟩ := List.map_eq_singleton_iff.mp hsingle.symm
  have hname := hbelow head List.mem_cons_self
  have hlast := hbelow argument (List.mem_cons_of_mem _ List.mem_cons_self)
  rw [← hhead] at hname
  rw [hargument] at hlast
  obtain ⟨hnamespan, z, hnamekind, hz, -⟩ := Depicts.kind_eq hname
  cases z <;> simp [Kind.map] at hz
  obtain ⟨hlastspan, z', hlastkind, hz', -⟩ := Depicts.kind_eq hlast
  cases z' <;> simp [Kind.map] at hz'
  subst hz
  obtain ⟨rfl, rfl⟩ := hz'
  exact ⟨head.2, argument.2, hn, hnamekind, hlastkind, hnamespan, hlastspan⟩

/-- An annotation is no part of a call. -/
theorem Inscribed.settled {label : Text} (h : Inscribed label t t') (ht : t.Sound)
    (hmoves : Moves t t') : Settled t t' := by
  refine ⟨h.kept ht hmoves, fun hcall => hcall.keep (fun m hm _ => h.span_eq m hm) fun m hm _ => ?_⟩
  have hlt : m < t.size := lt_size_of_form fun hform => hm.ne id hform
  cases h.old m hlt with
  | same hsame => exact hsame
  | longer hkind =>
    rw [form, hkind] at hm
    exact hm.elim
  | extended hkind =>
    rw [form, hkind] at hm
    exact hm.elim

theorem Inscribed.kind_eq {label : Text} (h : Inscribed label t t')
    (hopening : t.form n ≠ .opening) (hattr : t.form n ≠ .attr) (hn : n < t.size) :
    t'.kind n = t.kind n := by
  cases h.old n hn with
  | same hsame => exact hsame
  | longer hkind => exact absurd (congrArg Kind.form hkind) hopening
  | extended hkind => exact absurd (congrArg Kind.form hkind) hattr

/-- A template that is known in advance stays so behind an annotation. -/
theorem Inscribed.staticClasses_eq {label : Text} (h : Inscribed label t t') {template : NodeId}
    {builder : Option Text} (hstatic : t.staticClasses template builder = some classes) :
    t'.staticClasses template builder = some classes := by
  have hkind {m : NodeId} {k : Kind NodeId} (hm : t.kind m = k) (hk : k ≠ .fragment [])
      (hopening : k.form ≠ .opening) (hattr : k.form ≠ .attr) : t'.kind m = k := by
    have hform : t.form m = k.form := congrArg Kind.form hm
    have hlt : m < t.size := by
      by_contra hge
      exact hk (hm.symm.trans (kind_of_size_le (Nat.le_of_not_lt hge)))
    rw [h.kind_eq (hform ▸ hopening) (hform ▸ hattr) hlt, hm]
  have hliteral {m : NodeId} {value : Text} (hm : t.literalText m = some value) :
      t'.literalText m = some value := by
    refine literalText_eq_some.mpr ((literalText_eq_some.mp hm).imp ?_ ?_)
    · rintro ⟨quote, hstr⟩
      exact ⟨quote, hkind hstr (by simp) (by simp [Kind.form]) (by simp [Kind.form])⟩
    · rintro ⟨only, code, hfragment, hcode, hdecimal⟩
      exact ⟨only, code, hkind hfragment (by simp) (by simp [Kind.form]) (by simp [Kind.form]),
        hkind hcode (by simp) (by simp [Kind.form]) (by simp [Kind.form]), hdecimal⟩
  have hfold (chunks : List Text) (holes : List NodeId) {classes : Text}
      (hfold : t.foldChunks chunks holes = some classes) :
      t'.foldChunks chunks holes = some classes := by
    induction chunks generalizing holes classes with
    | nil => exact hfold
    | cons chunk chunks ih =>
      cases holes with
      | nil =>
        obtain ⟨more, hmore, rfl⟩ := Option.map_eq_some_iff.mp hfold
        exact Option.map_eq_some_iff.mpr ⟨more, ih [] hmore, rfl⟩
      | cons hole holes =>
        obtain ⟨value, hvalue, hfold⟩ := Option.bind_eq_some_iff.mp hfold
        obtain ⟨more, hmore, hall⟩ := Option.bind_eq_some_iff.mp hfold
        exact Option.bind_eq_some_iff.mpr
          ⟨value, hliteral hvalue, Option.bind_eq_some_iff.mpr ⟨more, ih holes hmore, hall⟩⟩
  obtain ⟨tag, chunks, holes, name, htemplate, htag, hbuilder, hall⟩ :=
    staticClasses_eq_some.mp hstatic
  exact staticClasses_eq_some.mpr ⟨tag, chunks, holes, name,
    hkind htemplate (by simp) (by simp [Kind.form]) (by simp [Kind.form]),
    hkind htag (by simp) (by simp [Kind.form]) (by simp [Kind.form]), hbuilder,
    hfold chunks holes hall⟩

/-- What is put in the place of a node that is no part of a call leaves calls alone. -/
theorem Placed.settled {old new above : NodeId} (h : Placed t (u.replaceAt old new) old new)
    (hadds : Adds t u new) (ht : t.Linked) (hparent : t.parent old = some above)
    (hform : ¬ (t.form old).Steady) {k : Kind NodeId} {up : NodeId → Option NodeId}
    (hedit :
      EditAt (u.update new ({ · with span := u.span old })) (u.replaceAt old new) above k up) :
    Settled t (u.replaceAt old new) := by
  refine ⟨h.kept, fun hcall => hcall.keep (fun m hm _ => h.kept.span m hm) fun m hm hbelow => ?_⟩
  have hlt : m < t.size := lt_size_of_form fun hform => hm.ne id hform
  have hne : m ≠ above := by
    rintro rfl
    exact hform (hbelow old (ht.mem_children.mpr hparent))
  rw [hedit.kind, if_neg hne, kind_place, hadds.kind_eq hlt]

/-- In `t'` a call for `classes` has come in the place that `template` had below `above`. -/
structure Recalled (callee classes : Text) (t t' : Tree) (template above call : NodeId) : Prop where
  settled : Settled t t'
  placed : Placed t t' template call
  isCall : t'.IsCall callee classes call
  kind : ∀ n < t.size, t'.kind n =
    if n = above then (t.kind above).replaceChild template call else t.kind n
  parent : ∀ n < t.size, t'.parent n = if n = template then none else t.parent n
  dirty : ∀ n < t.size, t'.dirty n = (t.dirty n || decide (n ∈ above :: t'.ancestors above))

end Tree

namespace Stylist

open JsxStyle.Tree

variable {t : Tree} {s : Stylist} {callee : Text} {template : NodeId} {classes : Text}

/-- The call for the classes of a template comes in the place of the template. -/
theorem recalled_replaceTemplate (ht : t.Sound) (hs : s.generate = Generator.runtimeCall callee)
    {builder : Option Text} (hpaired : (t.kind template).Paired)
    (hstatic : t.staticClasses template builder = some classes)
    {above : NodeId} (hparent : t.parent template = some above) :
    ∃ call, Recalled callee classes t (s.replaceTemplate template classes t).tree template above
      call := by
  have hplain : s.generate.Plain := fun _ _ hast => Or.inl ⟨callee, hs ▸ hast⟩
  obtain ⟨ast, hast⟩ : ∃ ast, s.generate classes = .ok ast := ⟨_, by rw [hs]; rfl⟩
  have hsupplies := supplies_graft ht.linked (Generator.steady_runtimeCall (hs ▸ hast))
  obtain ⟨hadds, hloose⟩ := adds_generated ht.linked hplain hast
  have hdepicts := (List.forall₂_cons.mp (graft_spec ast t ht.linked).depicts).1
  have hdirty (n : NodeId) (hn : n < t.size) :
      ((graft ast).run t).2.dirty n = t.dirty n := congrArg Node.dirty (hadds.old n hn)
  unfold replaceTemplate
  rw [hast]
  dsimp only
  generalize (graft ast).run t = run at *
  obtain ⟨call, u⟩ := run
  dsimp only at *
  obtain ⟨hplaced, hedit⟩ := hadds.placed ht (fun n hn => (hsupplies n hn).1) hparent
    (hloose.admits _) fun n hn => hn.not_within_static ht.linked hpaired hstatic
  have htemplate : t.form template = .template := (within_static ht.linked hpaired hstatic).1
  have hsettled : Settled t (u.replaceAt template call) := by
    refine hplaced.settled hadds ht.linked hparent ?_ hedit
    rw [htemplate]
    exact id
  have hsize := hadds.moves.size_le ht
  refine ⟨call, hsettled, hplaced, ?_, fun n hn => ?_, fun n hn => ?_, fun n hn => ?_⟩
  · have hcall : u.IsCall callee classes call := isCall_of_depicts hdepicts (hs ▸ hast)
    have hu := hadds.moves.sound ht
    refine hcall.keep (fun m _ hm => ?_) fun m hm hbelow => ?_
    · rw [hedit.span, span, node_update, if_neg fun h => hm h.1]
      rfl
    · have hne : m ≠ above := by
        rintro rfl
        have hlt := lt_size_of_parent hparent
        have hform : (u.form template).Steady :=
          hbelow template (hu.linked.mem_children.mpr ((hadds.parent_eq hlt).trans hparent))
        rw [hadds.form_eq hlt, htemplate] at hform
        exact hform
      rw [hedit.kind, if_neg hne, kind_place]
  · rw [hedit.kind, kind_place, hadds.kind_eq hn, hadds.kind_eq (ht.linked.parent_lt_size hparent)]
  · rw [hedit.parent, if_neg (Nat.ne_of_lt (Nat.lt_of_lt_of_le hn hplaced.behind)),
      hadds.parent_eq hn]
  · have hlt : n < (u.update call ({ · with span := u.span template })).size := by
      rw [size_update]
      exact Nat.lt_of_lt_of_le hn hsize
    rw [hedit.dirty, dirty_place, hdirty n hn]
    simp only [hlt, and_true]

/-- A reference to a template that is known in advance: a call comes in the place of the
template. -/
theorem placed_restyleReference (hready : t.Ready) (hs : s.generate = Generator.runtimeCall callee)
    {scope : Scope} {reference : NodeId} (hattached : t.isAttached reference = true)
    (henclosing : t.enclosing reference .template = some template)
    (hpermits : permits scope template t = true)
    (hstatic : t.staticClasses template scope.builder = some classes) :
    Settled t (s.restyleReference scope reference t).tree ∧
      ∃ call, Placed t (s.restyleReference scope reference t).tree template call ∧
        (s.restyleReference scope reference t).tree.IsCall callee classes call := by
  have ht := hready.sound
  obtain ⟨hok, hinscribed⟩ := inscribed_annotateAround (s := s) ht reference classes
  have hmoves := moves_annotateAround (s := s) ht reference classes
  obtain ⟨hform, hlt⟩ := ht.linked.form_of_enclosing henclosing
  obtain ⟨htemplate, above, hparent⟩ := exists_above ht.linked hattached
    (ht.linked.mem_ancestors_iff.mp (List.mem_of_find?_eq_some henclosing)).to_reflTransGen (by
      rintro rfl
      exact absurd (hready.root.symm.trans hform) (by decide))
  unfold restyleReference
  rw [if_pos hattached, henclosing]
  dsimp only
  rw [if_pos hpermits, hstatic]
  dsimp only
  generalize s.annotateAround reference classes t = step at *
  obtain ⟨u, failure⟩ := step
  dsimp only at hok hinscribed hmoves
  subst hok
  dsimp only
  have hu := hmoves.sound ht
  have hfirst := hinscribed.settled ht hmoves
  have hparent' := hinscribed.parent_eq ht.linked hu.linked hparent (by rw [hform]; decide)
  have hpaired' : (u.kind template).Paired :=
    (hmoves.paired_iff ht hlt).mpr (hready.paired template)
  obtain ⟨call, ⟨hsecond, hplaced, hcall, -, -, -⟩⟩ := recalled_replaceTemplate hu hs hpaired'
    (hinscribed.staticClasses_eq hstatic) hparent'
  refine ⟨hfirst.trans hsecond ht, call, ⟨hfirst.kept.trans hsecond.kept ht, ?_, ?_, ?_⟩, hcall⟩
  · exact Nat.le_trans hinscribed.size_le hplaced.behind
  · exact hplaced.span.trans (hinscribed.span_eq template hlt)
  · exact fun _ => hplaced.attached (hinscribed.isAttached ht hu htemplate (by rw [hform]; decide))

/-- Whatever reference it is, restyling it settles. -/
theorem settled_restyleReference (ht : t.Ready) (hs : s.generate = Generator.runtimeCall callee)
    (scope : Scope) (reference : NodeId) :
    Settled t (s.restyleReference scope reference t).tree := by
  by_cases hattached : t.isAttached reference = true
  · cases henclosing : t.enclosing reference .template with
    | none =>
      unfold restyleReference
      rw [if_pos hattached, henclosing]
      exact .refl t
    | some template =>
      by_cases hpermits : permits scope template t = true
      · cases hstatic : t.staticClasses template scope.builder with
        | none =>
          unfold restyleReference
          rw [if_pos hattached, henclosing]
          dsimp only
          rw [if_pos hpermits, hstatic]
          exact .refl t
        | some classes =>
          exact (placed_restyleReference ht hs hattached henclosing hpermits hstatic).1
      · unfold restyleReference
        rw [if_pos hattached, henclosing]
        dsimp only
        rw [if_neg hpermits]
        exact .refl t
  · unfold restyleReference
    rw [if_neg hattached]
    exact .refl t

/-- Restyling several references settles. -/
theorem settled_restyleReferences (ht : t.Ready) (hs : s.generate = Generator.runtimeCall callee)
    (scope : Scope) (references : List NodeId) :
    Settled t (s.restyleReferences scope references t).2 := by
  induction references generalizing t with
  | nil => exact .refl t
  | cons r rest ih =>
    have hstep := settled_restyleReference ht hs scope r
    exact hstep.trans (ih (hstep.kept.ready ht)) ht.sound

end Stylist

namespace Tree

variable {t u : Tree} {old new above : NodeId}

/-- What was added for a node that stands nowhere is put nowhere. -/
theorem Adds.settled_unplaced (hadds : Adds t u new) (ht : t.Sound)
    (hplain : ∀ n, t.size ≤ n → u.form n ≠ .template) (hold : old < t.size)
    (hparent : t.parent old = none) : Settled t (u.replaceAt old new) := by
  have hu := hadds.moves.sound ht
  have hunplaced : u.replaceAt old new = u.update new ({ · with span := u.span old }) := by
    rw [replaceAt_eq hu.linked hadds.lt_size hadds.dirty]
    exact replace_of_free ((parent_place ..).trans ((hadds.parent_eq hold).trans hparent))
  have hne {n : NodeId} (hn : n < t.size) : n ≠ new :=
    Nat.ne_of_lt (Nat.lt_of_lt_of_le hn hadds.behind)
  have hspan (n : NodeId) (hn : n < t.size) :
      (u.update new ({ · with span := u.span old })).span n = t.span n := by
    rw [span, node_update, if_neg fun h => hne hn h.1]
    exact congrArg Node.span (hadds.old n hn)
  have hmoves : Moves t (u.update new ({ · with span := u.span old })) :=
    hadds.moves.tail (.place _ hadds.dirty)
  rw [hunplaced]
  refine ⟨⟨hmoves, fun n hn => ?_, hspan, fun n hn hatt => ?_⟩, fun hcall => ?_⟩
  · rw [form, kind_place]
    exact hplain n hn
  · refine isAttached_of_uncut ht.linked (hmoves.sound ht).linked hn.form_ne_str
      hatt (fun _ => False) (fun _ _ => id) fun m p hp _ _ => .single ?_
    rw [Up, parent_place, hadds.parent_eq (lt_size_of_parent hp), hp]
  · refine hcall.keep (fun m hm _ => hspan m hm) fun m hm _ => ?_
    rw [kind_place, hadds.kind_eq (lt_size_of_form fun hform => hm.ne id hform)]

/-- A node in which nothing lasts is taken out. -/
theorem settled_remove (ht : t.Sound) (hmoves : Moves t (t.remove old))
    (hform : ¬ (t.form old).Steady) (hcut : ∀ n, t.IsLasting n → ¬ t.Within n old) :
    Settled t (t.remove old) := by
  cases hparent : t.parent old with
  | none =>
    unfold remove
    rw [hparent]
    exact .refl t
  | some above =>
    have hedit := editAt_remove ht.linked hparent
    refine ⟨⟨hmoves, fun n hn => ?_, fun n _ => hedit.span n, fun n hn hatt => ?_⟩, fun hcall => ?_⟩
    · exact form_ne_template_of_size_le (Nat.le_trans (Nat.le_of_eq hedit.size) hn)
    · refine isAttached_of_uncut ht.linked (hmoves.sound ht).linked hn.form_ne_str hatt
        (· = old) (fun m hm => ?_) fun m p hp _ hm => .single ?_
      · rintro rfl
        exact hcut n hn hm
      · rw [Up, hedit.parent, if_neg hm, hp]
    · refine hcall.keep (fun m _ _ => hedit.span m) fun m hm hbelow => ?_
      have hne : m ≠ above := by
        rintro rfl
        exact hform (hbelow old (ht.linked.mem_children.mpr hparent))
      rw [hedit.kind, if_neg hne]

/-- Taking out an import settles. -/
theorem settled_stripImport (ht : t.Sound) (found : StyleImport) :
    Settled t (t.stripImport found) := by
  have hmoves := moves_stripImport ht found
  rcases t.stripImport_cases found with hkept | ⟨decl, hkind, hcases⟩
  · rw [hkept]
    exact .refl t
  have hform : t.form found.node = .importing := congrArg Kind.form hkind
  have hlt : found.node < t.size := lt_size_of_form (by rw [hform]; decide)
  have hsteady : ¬ (t.form found.node).Steady := by
    rw [hform]
    exact id
  have hcut (n : NodeId) (hn : t.IsLasting n) : ¬ t.Within n found.node := by
    intro hwithin
    obtain rfl := hwithin.eq_of_leaf ht.linked (by rw [children, hkind]; rfl)
    rcases hn.form with h | h <;> exact absurd (h.symm.trans hform) (by decide)
  rcases hcases with hnew | hgone
  · rw [hnew]
    have hadds :
        Adds t (t.alloc (.importing (decl.without found.name)) none).2 t.size := .leaf t rfl
    have hplain (n : NodeId) (_ : t.size ≤ n) :
        (t.alloc (.importing (decl.without found.name)) none).2.form n ≠ .template := by
      rw [form, kind_alloc]
      split
      · simp [Kind.form]
      · exact form_ne_template_of_size_le ‹_›
    cases hparent : t.parent found.node with
    | none => exact hadds.settled_unplaced ht hplain hlt hparent
    | some above =>
      obtain ⟨hplaced, hedit⟩ := hadds.placed ht hplain hparent (by
        rw [form_alloc_self]
        exact ht.above_importing hform hparent) hcut
      exact hplaced.settled hadds ht.linked hparent hsteady hedit
  · rw [hgone] at hmoves ⊢
    exact settled_remove ht hmoves hsteady hcut

end Tree

namespace Draft

open JsxStyle.Tree

variable {s : Stylist} {callee : Text} {goOn : Bool} {d d' : Draft}

theorem tree_restyleAttribute {attr : NodeId} (hattached : d.tree.isAttached attr = true)
    (h : d.restyleAttribute goOn s attr = .ok d') :
    d'.tree = (s.restyleAttribute attr d.tree).tree := by
  unfold restyleAttribute at h
  rw [if_pos hattached] at h
  dsimp only at h
  split at h
  · rw [← Except.ok.inj h]
  · exact tree_of_report h

/-- Restyling an attribute of a module keeps what lasts. -/
theorem kept_restyleAttribute (hd : d.tree.Sound) (hs : s.generate = Generator.runtimeCall callee)
    {attr : NodeId} (h : d.restyleAttribute goOn s attr = .ok d') : Kept d.tree d'.tree := by
  by_cases hattached : d.tree.isAttached attr = true
  · rw [tree_restyleAttribute hattached h]
    exact Stylist.kept_restyleAttribute hd hs attr
  · unfold restyleAttribute at h
    rw [if_neg hattached] at h
    rw [← Except.ok.inj h]
    exact .refl _

/-- Restyling one attribute after the other keeps what lasts. -/
theorem kept_foldlM (hd : d.tree.Sound) (hs : s.generate = Generator.runtimeCall callee)
    {attributes : List NodeId} (h : attributes.foldlM (restyleAttribute goOn s) d = .ok d') :
    Kept d.tree d'.tree := by
  induction attributes generalizing d with
  | nil =>
    rw [← pure_eq_ok.mp h]
    exact .refl _
  | cons attr rest ih =>
    rw [List.foldlM_cons] at h
    obtain ⟨next, hnext, h⟩ := bind_eq_ok.mp h
    have hkept := kept_restyleAttribute hd hs hnext
    exact hkept.trans (ih (hkept.moves.sound hd) h) hd

end Draft

namespace Tree

/-- During the compilation of `t₀` the turn of the shorthand attribute `attr` comes, and its tag has
no style attribute, so one is put in its place. -/
inductive BecomesStyle (settings : Settings) (t₀ : Tree) (attr : NodeId) (classes : Text) : Prop
  | intro {done todo : List NodeId} {d : Draft} {opening : NodeId}
      (hwanted : settings.options.requireImport = false ∨
        (t₀.styleImport? settings.options.importSources).isSome)
      (hsplit : t₀.allAttributes = done ++ attr :: todo)
      (hrun : done.foldlM (Draft.restyleAttribute settings.options.continueOnError settings.stylist)
        { tree := t₀ } = .ok d)
      (hattached : d.tree.isAttached attr = true)
      (hclasses : d.tree.classes attr = some classes)
      (henclosing : d.tree.enclosing attr .opening = some opening)
      (hnone : d.tree.attributeNamed (d.tree.attributes opening) Vocabulary.style = none)

/-- During the compilation of `t₀` the turn of a reference to the style builder comes, which tags
the template `template` and is known in advance, so a call is put in its place. -/
inductive BecomesCall (settings : Settings) (t₀ : Tree) (template : NodeId) (classes : Text) : Prop
  | intro {found : StyleImport} {d : Draft} {done todo : List NodeId} {reference : NodeId}
      {scope : Scope} {t : Tree}
      (hfound : t₀.styleImport? settings.options.importSources = some found)
      (hrun : Draft.restyleAttributes settings.options.continueOnError settings.stylist
        { tree := t₀ } = .ok d)
      (hsplit : d.tree.referencesTo found.name = done ++ reference :: todo)
      (hscope : scope =
        { allowAnywhere := settings.options.allowStyleProp, builder := some found.name })
      (ht : t = (settings.stylist.restyleReferences scope done d.tree).2)
      (hattached : t.isAttached reference = true)
      (henclosing : t.enclosing reference .template = some template)
      (hpermits : Stylist.permits scope template t = true)
      (hclasses : t.staticClasses template scope.builder = some classes)

/-- What is printed of a call of `callee` with classes. -/
theorem IsCall.code {t : Tree} {callee classes : Text} {n : NodeId}
    (h : t.IsCall callee classes n) (ht : t.Linked) (hdirty : t.dirty n = true) :
    (t.printNode n).code = callee ++ [Ascii.openParen] ++ Text.quoted '"' classes.collapse ++
      [Ascii.closeParen] := by
  obtain ⟨name, argument, hn, hname, hargument, hnamespan, hargumentspan⟩ := h
  have hwritten {m : NodeId} (hm : t.span m = none) :
      t.printNode m = ((t.kind m).map t.printNode).render (t.inAttribute m) := by
    rw [ht.printNode_eq, hm]
    exact Printed.empty_append _
  have hparent : t.parent argument = some n := ht.parent_of_kind hn (by simp [Kind.children])
  have hplain : t.inAttribute argument = false := by
    rw [inAttribute, hparent, Option.any_some, form, hn]
    rfl
  rw [ht.code_printNode_of_dirty hdirty, hn]
  simp only [Kind.map, Kind.render, List.map_cons, List.map_nil, Printed.joined,
    Printed.code_append]
  rw [hwritten hnamespan, hname, hwritten hargumentspan, hargument, hplain]
  rfl

/-- Output records that what is printed of `n` stands for a place in the source. -/
def MapsTo (t : Tree) (out : Printed) (place : Option Span) (n : NodeId) : Prop :=
  ∃ m ∈ out.mappings, place = some m.place ∧
    ∃ before after, out.code = before ++ (t.printNode n).code ++ after ∧
      before.length = m.generated

/-- An attached node that is touched and has a place is recorded. -/
theorem Charted.mapsTo {t : Tree} {out : Printed} (h : t.Charted out) (ht : t.Linked) {n : NodeId}
    {s : Span} (hattached : t.isAttached n = true) (hdirty : t.dirty n = true)
    (hspan : t.span n = some s) : t.MapsTo out (some s) n := by
  have hmem : n ∈ t.mapped root := by
    refine List.mem_filter.mpr ⟨?_, by simp [isMapped, hdirty, hspan]⟩
    exact List.mem_cons.mpr (ht.isAttached_iff_mem_descendants.mp hattached)
  obtain ⟨i, hi, rfl⟩ := List.getElem_of_mem hmem
  have hlength := congrArg List.length h.places
  rw [List.length_map, List.length_map] at hlength
  have hi' : i < out.mappings.length := hlength ▸ hi
  have hrecord := h.entries i _ _ (List.getElem?_eq_getElem hi) (List.getElem?_eq_getElem hi')
  exact ⟨out.mappings[i], List.getElem_mem hi', hspan.symm.trans hrecord.place, hrecord.text⟩

end Tree

theorem Stylist.restyleReferences_append (s : Stylist) (scope : Scope) (done todo : List NodeId)
    (t : Tree) : (s.restyleReferences scope (done ++ todo) t).2 =
      (s.restyleReferences scope todo (s.restyleReferences scope done t).2).2 := by
  induction done generalizing t with
  | nil => rfl
  | cons r rest ih => exact ih _

section Runs

open JsxStyle.Tree

variable {settings : Settings} {source : Text} {t₀ : Tree} {d₁ d : Draft}

/-- After the attributes and references of a module what is left to do settles. -/
theorem settled_strip (hd : d₁.tree.Ready)
    (hrun : Draft.restyleAttributes settings.options.continueOnError settings.stylist
      { tree := t₀ } = .ok d₁) {found : StyleImport}
    (hfound : t₀.styleImport? settings.options.importSources = some found)
    (h : settings.restyle settings.stylist t₀ = .ok d) :
    Settled (settings.stylist.restyleReferences
      { allowAnywhere := settings.options.allowStyleProp, builder := some found.name }
      (d₁.tree.referencesTo found.name) d₁.tree).2 d.tree := by
  have hsettled := Stylist.settled_restyleReferences (s := settings.stylist) hd rfl
    { allowAnywhere := settings.options.allowStyleProp, builder := some found.name }
    (d₁.tree.referencesTo found.name)
  rw [Settings.restyle_of_attributes hrun (.inr (by rw [hfound]; rfl)), hfound] at h
  obtain ⟨d₂, hd₂, rfl⟩ := map_eq_ok.mp h
  have htree := Draft.tree_of_reports hd₂
  dsimp only at htree ⊢
  rw [← htree] at hsettled ⊢
  split
  · exact settled_stripImport (hsettled.kept.moves.sound hd.sound) found
  · exact .refl _

/-- After the attributes of a module what is left to do keeps what lasts. -/
theorem kept_rest (hd : d₁.tree.Ready)
    (hrun : Draft.restyleAttributes settings.options.continueOnError settings.stylist
      { tree := t₀ } = .ok d₁)
    (himport : settings.options.requireImport = false ∨
      (t₀.styleImport? settings.options.importSources).isSome)
    (h : settings.restyle settings.stylist t₀ = .ok d) : Kept d₁.tree d.tree := by
  cases hfound : t₀.styleImport? settings.options.importSources with
  | none =>
    rw [Settings.restyle_of_attributes hrun himport, hfound] at h
    rw [← Except.ok.inj h]
    exact .refl _
  | some found =>
    have hreferences := Stylist.settled_restyleReferences (s := settings.stylist) hd rfl
      { allowAnywhere := settings.options.allowStyleProp, builder := some found.name }
      (d₁.tree.referencesTo found.name)
    exact hreferences.kept.trans (settled_strip hd hrun hfound h).kept hd.sound

/-- A compilation keeps what lasts. -/
theorem kept_restyle (ht₀ : t₀.Ready) (h : settings.restyle settings.stylist t₀ = .ok d) :
    Kept t₀ d.tree := by
  obtain ⟨d₁, hattributes, hrest⟩ := restyle_cases h
  have hfirst : Kept t₀ d₁.tree := by
    rcases hattributes with rfl | hattributes
    · exact .refl t₀
    · exact Draft.kept_foldlM ht₀.sound rfl hattributes
  rcases hrest with rfl | ⟨found, d₂, hreferences, hend⟩
  · exact hfirst
  · have hd₁ := hfirst.ready ht₀
    have hsecond : Kept t₀ d₂.tree := by
      rw [Draft.tree_of_reports hreferences]
      exact hfirst.trans (Stylist.settled_restyleReferences hd₁ rfl _ _).kept ht₀.sound
    rcases hend with rfl | rfl
    · exact hsecond
    · exact hsecond.trans (settled_stripImport (hsecond.ready ht₀).sound found).kept ht₀.sound

/-- A compilation that succeeds has been through all attributes that it wanted to restyle. -/
theorem exists_restyleAttributes
    (himport : settings.options.requireImport = false ∨
      (t₀.styleImport? settings.options.importSources).isSome)
    (h : settings.restyle settings.stylist t₀ = .ok d) :
    ∃ d₁, Draft.restyleAttributes settings.options.continueOnError settings.stylist
      { tree := t₀ } = .ok d₁ := by
  have hwanted : (settings.options.requireImport &&
      (t₀.styleImport? settings.options.importSources).isNone) = false := by
    rcases himport with h | h <;> simp [h]
  unfold Settings.restyle at h
  dsimp only at h
  rw [hwanted] at h
  obtain ⟨d₁, hd₁, -⟩ := bind_eq_ok.mp h
  exact ⟨d₁, hd₁⟩

/-- A lasting node that came in the place of a node of a module is recorded with its place. -/
theorem mapsTo_of_placed {t t' u : Tree} {out : Printed} {old new : NodeId}
    (hread : ofSource source = .ok t₀) (hbefore : Kept t₀ t) (hold : old < t₀.size)
    (hplaced : Placed t t' old new) (hattached : t.isAttached old = true)
    (hlasting : t'.IsLasting new) (hrest : Kept t' u) (hfaithful : Faithful t₀ u)
    (hcharted : u.Charted out) : u.dirty new = true ∧ u.MapsTo out (t₀.span old) new := by
  have ht₀ := sound_ofSource hread
  have ht := hbefore.moves.sound ht₀
  have ht' := hplaced.kept.moves.sound ht
  obtain ⟨s, hs⟩ := Option.isSome_iff_exists.mp ((placed_ofSource hread).2 old hold).2
  have hspan : u.span new = some s := by
    rw [hrest.span new hlasting.lt_size, hplaced.span, hbefore.span old hold, hs]
  have hlt : new < u.size := Nat.lt_of_lt_of_le hlasting.lt_size (hrest.moves.size_le ht')
  have hbehind : t₀.size ≤ new := Nat.le_trans (hbefore.moves.size_le ht₀) hplaced.behind
  have hdirty := hfaithful.added new hbehind hlt
  rw [hs]
  exact ⟨hdirty, hcharted.mapsTo (hrest.moves.sound ht').linked
    (hrest.attached new hlasting (hplaced.attached hattached)) hdirty hspan⟩

/-- What replaces a shorthand attribute is recorded with the place that the attribute had. -/
theorem mapsTo_of_becomesStyle {out : Printed} {attr : NodeId} {classes : Text}
    (hread : ofSource source = .ok t₀) (h : settings.restyle settings.stylist t₀ = .ok d)
    (hfaithful : Faithful t₀ d.tree) (hcharted : d.tree.Charted out)
    (hattr : BecomesStyle settings t₀ attr classes) :
    ∃ style, d.tree.MapsTo out (t₀.span attr) style ∧
      d.tree.attributeName style = some Vocabulary.style := by
  have hready := ready_ofSource hread
  obtain @⟨done, todo, d₂, opening, hwanted, hsplit, hrun, hattached, hclasses, henclosing,
    hnone⟩ := hattr
  obtain ⟨d₁, hd₁⟩ := exists_restyleAttributes hwanted h
  have hmem : attr ∈ t₀.allAttributes := by
    rw [hsplit]
    exact List.mem_append_right _ List.mem_cons_self
  have hform : t₀.form attr = .attr := of_decide_eq_true (List.mem_filter.mp hmem).2
  have hlt : attr < t₀.size := lt_size_of_form (by rw [hform]; decide)
  have hbefore := Draft.kept_foldlM hready.sound rfl hrun
  have hd₂ := hbefore.ready hready
  have hform₂ := (hbefore.moves.form_eq hready.sound hlt).trans hform
  obtain ⟨hparent, hopening⟩ := hd₂.sound.parent_of_enclosing hform₂ henclosing
  -- The run goes on with the attribute and then with those behind it.
  have hrest : t₀.allAttributes.foldlM (Draft.restyleAttribute settings.options.continueOnError
      settings.stylist) { tree := t₀ } = .ok d₁ := hd₁
  rw [hsplit, List.foldlM_append, hrun] at hrest
  obtain ⟨next, hnext, htodo⟩ := bind_eq_ok.mp (show (d₂.restyleAttribute
    settings.options.continueOnError settings.stylist attr >>= fun d => todo.foldlM
      (Draft.restyleAttribute settings.options.continueOnError settings.stylist) d) =
        .ok d₁ from hrest)
  obtain ⟨-, hstep⟩ :=
    Stylist.restyleAttribute_of_some (s := settings.stylist) hd₂.sound hclasses hparent
  rw [hnone] at hstep
  obtain ⟨style, hplaced, hname⟩ := Stylist.placed_convert (s := settings.stylist) hd₂.sound rfl
    hclasses hparent hopening (d₂.tree.attributes opening)
  have htree := Draft.tree_restyleAttribute hattached hnext
  rw [hstep] at htree
  rw [← htree] at hplaced hname
  have hnextready := hplaced.kept.ready hd₂
  have hfinish := (Draft.kept_foldlM hnextready.sound rfl htodo).trans
    (kept_rest (Draft.kept_foldlM hready.sound rfl hd₁ |>.ready hready) hd₁ hwanted h)
    hnextready.sound
  have hlasting : next.tree.IsLasting style := .inl hname
  refine ⟨style, (mapsTo_of_placed hread hbefore hlt hplaced hattached hlasting hfinish hfaithful
    hcharted).2, ?_⟩
  exact (hfinish.moves.attributeName_eq hnextready.sound hlasting.lt_size).trans hname

/-- The call that replaces a template is recorded with the place that the template had. -/
theorem mapsTo_of_becomesCall {out : Printed} {template : NodeId} {classes : Text}
    (hread : ofSource source = .ok t₀) (h : settings.restyle settings.stylist t₀ = .ok d)
    (hfaithful : Faithful t₀ d.tree) (hcharted : d.tree.Charted out)
    (htemplate : BecomesCall settings t₀ template classes) :
    ∃ call, d.tree.MapsTo out (t₀.span template) call ∧
      (d.tree.printNode call).code = settings.generator.callee ++ [Ascii.openParen] ++
        Text.quoted '"' classes.collapse ++ [Ascii.closeParen] := by
  have hready := ready_ofSource hread
  obtain @⟨found, d₁, done, todo, reference, scope, t, hfound, hrun, hsplit, hscope, ht, hattached,
    henclosing, hpermits, hclasses⟩ := htemplate
  have hfirst := Draft.kept_foldlM hready.sound rfl hrun
  have hd₁ := hfirst.ready hready
  have hsecond := Stylist.settled_restyleReferences (s := settings.stylist) hd₁ rfl scope done
  rw [← ht] at hsecond
  have hbefore := hfirst.trans hsecond.kept hready.sound
  have htready := hbefore.ready hready
  obtain ⟨hsettled, call, hplaced, hcall⟩ := Stylist.placed_restyleReference (s := settings.stylist)
    htready rfl hattached henclosing hpermits hclasses
  have hnextready := hsettled.kept.ready htready
  -- The templates that wait, and then the import.
  have htodo := Stylist.settled_restyleReferences (s := settings.stylist) hnextready rfl scope todo
  have hfinish := settled_strip hd₁ hrun hfound h
  rw [hsplit, ← hscope, Stylist.restyleReferences_append, ← ht] at hfinish
  have hrest := htodo.trans hfinish hnextready.sound
  obtain ⟨hform, hlt⟩ := htready.sound.linked.form_of_enclosing henclosing
  have hold : template < t₀.size := by
    by_contra hge
    exact hbefore.fresh template (Nat.le_of_not_lt hge) hform
  obtain ⟨hattached', -⟩ := exists_above htready.sound.linked hattached
    (htready.sound.linked.mem_ancestors_iff.mp
      (List.mem_of_find?_eq_some henclosing)).to_reflTransGen
    (by
      rintro rfl
      exact absurd (htready.root.symm.trans hform) (by decide))
  have hlasting : (settings.stylist.restyleReference scope reference t).tree.IsLasting call := by
    obtain ⟨name, argument, hkind, -⟩ := hcall
    exact .inr (congrArg Kind.form hkind)
  obtain ⟨hdirty, hmaps⟩ :=
    mapsTo_of_placed hread hbefore hold hplaced hattached' hlasting hrest.kept
    hfaithful hcharted
  have hd := hrest.kept.moves.sound hnextready.sound
  exact ⟨call, hmaps, (hrest.calls hcall).code hd.linked hdirty⟩

/-- **Mappings are exact.**  If a module is compiled, the mappings of the output rise and are
those of the touched nodes of the final tree that have a place, in order and each once; where a
mapping points, its node is printed, with the mappings of what is printed of it.  Wherever a
style attribute has replaced a shorthand attribute, or a call a template, there is a mapping
from it to the place that the attribute or template had. -/
theorem mappings_exact {out : Output} (h : compile settings source = .ok out) :
    ∃ t₀ d, ofSource source = .ok t₀ ∧ settings.restyle settings.stylist t₀ = .ok d ∧
      out = d.output source ∧ d.tree.Charted out.printed ∧
      (∀ attr classes, BecomesStyle settings t₀ attr classes → ∃ style,
        d.tree.MapsTo out.printed (t₀.span attr) style ∧
          d.tree.attributeName style = some Vocabulary.style) ∧
      ∀ template classes, BecomesCall settings t₀ template classes → ∃ call,
        d.tree.MapsTo out.printed (t₀.span template) call ∧
          (d.tree.printNode call).code = settings.generator.callee ++ [Ascii.openParen] ++
            Text.quoted '"' classes.collapse ++ [Ascii.closeParen] := by
  obtain ⟨t₀, d, hread, hrun, rfl⟩ := compile_eq_ok.mp h
  have hready := ready_ofSource hread
  have hkept := kept_restyle hready hrun
  have hfaithful := (faithful_ofSource hread).moves hready.sound hkept.moves
  have hd := hkept.ready hready
  have hcharted := charted_print hfaithful hd.sound.linked hd.paired
  exact ⟨t₀, d, hread, hrun, rfl, hcharted,
    fun _ _ hattr => mapsTo_of_becomesStyle hread hrun hfaithful hcharted hattr,
    fun _ _ htemplate => mapsTo_of_becomesCall hread hrun hfaithful hcharted htemplate⟩

/-- A shorthand attribute and a template of one tag, with the mappings of what replaces them. -/
theorem attribute_and_template_mapped :
    ∃ (settings : Settings) (source : Text) (out : Output) (t₀ : Tree) (d : Draft),
      settings = { options := { allowStyleProp := true } } ∧
      source = Text.ofString
        "import tw from 'twin.macro';x = <a tw='p' id=\x7btw\x60v\x60\x7d />" ∧
      compile settings source = .ok out ∧ ofSource source = .ok t₀ ∧ d.tree.Charted out.printed ∧
      BecomesStyle settings t₀ 4 (Text.ofString "p") ∧ t₀.span 4 = some ⟨35, 41⟩ ∧
      (∃ style, d.tree.MapsTo out.printed (some ⟨35, 41⟩) style ∧
        d.tree.attributeName style = some Vocabulary.style) ∧
      BecomesCall settings t₀ 6 (Text.ofString "v") ∧ t₀.span 6 = some ⟨46, 51⟩ ∧
      ∃ call, d.tree.MapsTo out.printed (some ⟨46, 51⟩) call ∧
        (d.tree.printNode call).code = Text.ofString "twStyles(\"v\")" := by
  obtain ⟨settings, hsettings⟩ :
      ∃ settings : Settings, settings = { options := { allowStyleProp := true } } := ⟨_, rfl⟩
  obtain ⟨source, hsource⟩ : ∃ source : Text, source = Text.ofString
      "import tw from 'twin.macro';x = <a tw='p' id=\x7btw\x60v\x60\x7d />" := ⟨_, rfl⟩
  have hcompile : ((compile settings source).toOption.any fun _ => true) = true := by
    subst hsettings hsource
    decide +kernel
  have hfacts : ((ofSource source).toOption.any fun t₀ => (t₀.allAttributes = [4, 8] ∧
      t₀.isAttached 4 = true ∧ t₀.classes 4 = some (Text.ofString "p") ∧
      t₀.enclosing 4 .opening = some 9 ∧
      t₀.attributeNamed (t₀.attributes 9) Vocabulary.style = none ∧
      t₀.span 4 = some ⟨35, 41⟩ ∧ t₀.span 6 = some ⟨46, 51⟩ ∧
      t₀.styleImport? settings.options.importSources = some ⟨1, Text.ofString "tw"⟩) ∧
      ((Draft.restyleAttributes settings.options.continueOnError settings.stylist
        { tree := t₀ }).toOption.any fun d => d.tree.referencesTo (Text.ofString "tw") = [5] ∧
          d.tree.isAttached 5 = true ∧ d.tree.enclosing 5 .template = some 6 ∧
          Stylist.permits ⟨true, some (Text.ofString "tw")⟩ 6 d.tree = true ∧
          d.tree.staticClasses 6 (some (Text.ofString "tw")) = some (Text.ofString "v")) = true) =
            true := by
    subst hsettings hsource
    decide +kernel
  obtain ⟨t, hread, hfacts⟩ := exists_of_any hfacts
  obtain ⟨⟨hall, hattached, hclasses, htag, hnone, hattrspan, htemplatespan, hfound⟩, hrest⟩ :=
    of_decide_eq_true hfacts
  obtain ⟨d₁, hd₁, hrest⟩ := exists_of_any hrest
  obtain ⟨hreferences, hreference, htemplate, hpermits, hstatic⟩ := of_decide_eq_true hrest
  obtain ⟨out, hout, -⟩ := exists_of_any hcompile
  obtain ⟨t₀, d, hread', hd, -, hcharted, hstyles, hcalls⟩ := mappings_exact hout
  obtain rfl := Except.ok.inj (hread.symm.trans hread')
  have hsplit : t.allAttributes = [] ++ 4 :: [8] := hall
  have hsplit' : d₁.tree.referencesTo (Text.ofString "tw") = [] ++ 5 :: [] := hreferences
  have hattr : BecomesStyle settings t 4 (Text.ofString "p") :=
    .intro (.inl (by rw [hsettings])) hsplit rfl hattached hclasses htag hnone
  have hcall : BecomesCall settings t 6 (Text.ofString "v") :=
    .intro hfound hd₁ hsplit' rfl rfl hreference htemplate
      (by rw [hsettings]; exact hpermits) hstatic
  have htext : settings.generator.callee ++ [Ascii.openParen] ++
      Text.quoted '"' (Text.ofString "v").collapse ++ [Ascii.closeParen] =
        Text.ofString "twStyles(\"v\")" := by
    rw [hsettings]
    decide +kernel
  have hstyle := hstyles 4 _ hattr
  have hmaps := hcalls 6 _ hcall
  rw [hattrspan] at hstyle
  rw [htemplatespan, htext] at hmaps
  exact ⟨settings, source, out, t, d, hsettings, hsource, hout, hread, hcharted, hattr, hattrspan,
    hstyle, hcall, htemplatespan, hmaps⟩

end Runs

end JsxStyle
