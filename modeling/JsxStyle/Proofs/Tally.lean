import JsxStyle.Proofs.Cascade

/-!
# Which attributes are left

The attributes of a module are listed once, and each is restyled when its turn
comes.  Until then handlers have put styles around, behind and in the place of
others, so what has to be shown is that this is no concern of an attribute that
still waits: it stays attached to its tag, and it fails at its turn exactly if it
would fail in the module as it was read, and for the same reason.

A shorthand attribute that is restyled is cut off and has no other attribute below
it.  Every other link on the way up from an attribute is kept, or leads through an
array that was put around a style expression.

* `Dealt`: what is known after one attribute was restyled;
* `restyleAttribute_dealt`: an attribute fails or is dealt with;
* `Tallied.turn`: the attribute whose turn it is stands where it stood;
* `Draft.visits_of_step`: from one visit to any number of visits;
* `Tallied.visit`, `Tallied.run`: the account after some of the attributes.
-/

namespace JsxStyle

namespace Tree

/-- The first style attribute of a tag, if it has no expression. -/
def blankStyle (t : Tree) (opening : NodeId) : Option NodeId :=
  (t.attributeNamed (t.attributes opening) Vocabulary.style).filter fun style =>
    (t.styleExpression style).isNone

/-- Why a shorthand attribute cannot be restyled: its value is not a plain string, or
the style attribute beside it has no expression. -/
def shorthandFault (t : Tree) (attr : NodeId) : Option StyleError :=
  if t.attributeName attr = some Vocabulary.shorthand then
    match t.shorthandClasses attr with
    | .error e => some e
    | .ok _ => ((t.parent attr).bind t.blankStyle).map fun style => ⟨.emptyStyle, t.span style⟩
  else none

/-- A shorthand attribute that nothing is wrong with. -/
def IsRestylable (t : Tree) (attr : NodeId) : Prop :=
  t.attributeName attr = some Vocabulary.shorthand ∧ t.shorthandFault attr = none

instance (t : Tree) (attr : NodeId) : Decidable (t.IsRestylable attr) :=
  inferInstanceAs (Decidable (_ ∧ _))

section Chains

variable {t t' : Tree}

/-- The way up from a node is the same if every link on it is. -/
theorem ancestors_eq_of_path (ht : t.Linked) (ht' : t'.Linked) {n : NodeId}
    (h : ∀ m, t.Within n m → t'.parent m = t.parent m) : t'.ancestors n = t.ancestors n := by
  induction ht.grounded n with
  | intro n _ ih =>
    have hsame := h n .refl
    cases hp : t.parent n with
    | none => rw [ht.ancestors_eq_nil hp, ht'.ancestors_eq_nil (hsame.trans hp)]
    | some p =>
      rw [ht.ancestors_eq_cons hp, ht'.ancestors_eq_cons (hsame.trans hp),
        ih p hp fun m hm => h m (.head hp hm)]

/-- A node other than the root is attached when its parent is. -/
theorem Linked.isAttached_iff_parent (ht : t.Linked) {n : NodeId} (hne : n ≠ root) :
    t.isAttached n = true ↔ ∃ p, t.parent n = some p ∧ t.isAttached p = true := by
  constructor
  · intro h
    obtain ⟨p, hp⟩ := ht.exists_parent h hne
    refine ⟨p, hp, ?_⟩
    rcases Relation.ReflTransGen.cases_head (ht.isAttached_iff.mp h) with heq | ⟨q, hq, hrest⟩
    · exact absurd heq hne
    · obtain rfl := Option.some.inj (hp.symm.trans hq)
      exact ht.isAttached_iff.mpr hrest
  · rintro ⟨p, hp, h⟩
    exact isAttached_of_parent ht hp h

/-- The link above a node is kept, or leads through an array that was added. -/
def Relinked (t t' : Tree) (n : NodeId) : Prop :=
  t'.parent n = t.parent n ∨ ∃ array, t.size ≤ array ∧ t'.form array = .array ∧
    t'.parent n = some array ∧ t'.parent array = t.parent n

/-- A node is attached as before if every link on the way up is kept in this sense. -/
theorem isAttached_iff_of_relinked (ht : t.Linked) (ht' : t'.Linked) {n : NodeId}
    (h : ∀ m, t.Within n m → Relinked t t' m) : t'.isAttached n = true ↔ t.isAttached n = true := by
  induction ht.grounded n with
  | intro n _ ih =>
    by_cases hroot : n = root
    · subst hroot
      simp [isAttached]
    · have hup : (∃ p, t.parent n = some p ∧ t'.isAttached p = true) ↔
          ∃ p, t.parent n = some p ∧ t.isAttached p = true :=
        exists_congr fun p => and_congr_right fun hp => ih p hp fun m hm => h m (.head hp hm)
      rw [ht.isAttached_iff_parent hroot, ← hup, ht'.isAttached_iff_parent hroot]
      rcases h n .refl with hsame | ⟨array, hge, -, hn, harray⟩
      · rw [hsame]
      · have hne : array ≠ root := Nat.ne_of_gt (Nat.lt_of_lt_of_le ht.nonempty hge)
        rw [hn, ← harray, ← ht'.isAttached_iff_parent hne]
        simp

/-- A string has nothing below it. -/
theorem Linked.form_ne_str (ht : t.Linked) {c p : NodeId} (hp : t.parent c = some p) :
    t.form p ≠ .str := by
  intro hform
  have hmem := ht.mem_children.mpr hp
  unfold form at hform
  unfold children at hmem
  cases hk : t.kind p <;> simp_all [Kind.form, Kind.children]

theorem Within.lt_size (ht : t.Linked) {n m : NodeId} (h : t.Within n m) (hn : n < t.size) :
    m < t.size := by
  induction h with
  | refl => exact hn
  | tail _ hup _ => exact ht.parent_lt_size hup

/-- A node is found below another one at most once. -/
theorem Linked.nodup_descendants (ht : t.Linked) (n : NodeId) : (t.descendants n).Nodup := by
  suffices h : ∀ d n, (t.descendantsWithin d n).Nodup from h ..
  have hwithin {d : Nat} {m c : NodeId} (hm : m ∈ c :: t.descendantsWithin d c) : t.Within m c := by
    rcases List.mem_cons.mp hm with rfl | hm
    · exact .refl
    · exact (below_of_mem_ancestorsWithin (ht.mem_descendantsWithin_iff.mp hm)).to_reflTransGen
  intro d
  induction d with
  | zero => exact fun _ => List.nodup_nil
  | succ d ih =>
    intro n
    rw [descendantsWithin, List.nodup_flatMap]
    refine ⟨fun c _ => List.nodup_cons.mpr ⟨fun hc => ?_, ih c⟩, ?_⟩
    · exact ht.not_below_self c
        (below_of_mem_ancestorsWithin (ht.mem_descendantsWithin_iff.mp hc))
    · refine (ht.nodup n).imp_of_mem fun {b c} hb hc hne => ?_
      refine List.disjoint_left.mpr fun m hmb hmc => ?_
      exact hne (ht.eq_of_within_children (ht.mem_children.mp hb) (ht.mem_children.mp hc)
        (hwithin hmb) (hwithin hmc))

end Chains

/-- What is known after the attribute `attr` of the tag `opening` was restyled. -/
structure Dealt (label : Text) (t t' : Tree) (opening attr : NodeId) : Prop where
  reworked : Reworked label t t' opening
  supplies : Supplies t t'
  gone : t'.parent attr = none
  links : ∀ n < t.size, n ≠ attr → t.form n ≠ .str → Relinked t t' n
  before : t.blankStyle opening = none
  after : t'.blankStyle opening = none

section Styles

variable {t t' : Tree} {label name : Text} {opening : NodeId}

/-- An annotation comes in behind the first attribute of its kind. -/
theorem Noted.attributeNamed {anchor : NodeId} (h : Noted label t t' opening anchor) (ht : t.Sound)
    (hmoves : Moves t t') (hopening : t.form opening = .opening)
    (hfirst : t.attributeNamed (t.attributes opening) name = some anchor) :
    t'.attributeNamed (t'.attributes opening) name = some anchor := by
  obtain ⟨before, after, new, hsplit, hsplit', hbehind⟩ := h.behind
  have hanchor : anchor ∈ before := hbehind (List.mem_of_find?_eq_some hfirst)
  have hname : t.attributeName anchor = some name := by simpa using List.find?_some hfirst
  have hsame : t'.attributeNamed before name = t.attributeNamed before name :=
    attributeNamed_congr fun a ha => hmoves.attributeName_eq ht
      (lt_size_of_mem_attributes ht.linked hopening (hsplit ▸ List.mem_append_left _ ha))
  obtain ⟨first, hfound⟩ : ∃ first, t.attributeNamed before name = some first := by
    refine Option.isSome_iff_exists.mp (List.find?_isSome.mpr ⟨anchor, hanchor, ?_⟩)
    simp [hname]
  rw [hsplit, Tree.attributeNamed, List.find?_append, ← Tree.attributeNamed, hfound,
    Option.some_or] at hfirst
  rw [hsplit', Tree.attributeNamed, List.find?_append, List.find?_append, ← Tree.attributeNamed,
    hsame,
    hfound, Option.some_or, Option.some_or, hfirst]

/-- The first style attribute has an expression, so it is not blank. -/
theorem blankStyle_eq_none {style expression : NodeId}
    (hstyle : t.attributeNamed (t.attributes opening) Vocabulary.style = some style)
    (hexpression : t.styleExpression style = some expression) : t.blankStyle opening = none := by
  rw [blankStyle, hstyle, Option.filter_some, hexpression]
  rfl

/-- With classes, only a style attribute without an expression is at fault. -/
theorem shorthandFault_of_ok {attr : NodeId} {classes : Text}
    (hname : t.attributeName attr = some Vocabulary.shorthand)
    (hclasses : t.shorthandClasses attr = .ok classes) (hparent : t.parent attr = some opening) :
    t.shorthandFault attr =
      (t.blankStyle opening).map fun style => ⟨.emptyStyle, t.span style⟩ := by
  rw [shorthandFault, if_pos hname, hclasses, hparent, Option.bind_some]

end Styles

end Tree

namespace Stylist

open JsxStyle.Tree

variable {t : Tree} {s : Stylist} {callee : Text} {attr opening : NodeId} {classes : Text}

/-- Converting a shorthand attribute deals with it. -/
theorem dealt_convert (ht : t.Sound) (hs : s.generate = Generator.runtimeCall callee)
    (hlabel : s.annotator.label ≠ Vocabulary.shorthand)
    (hname : t.attributeName attr = some Vocabulary.shorthand)
    (hparent : t.parent attr = some opening) (hopening : t.form opening = .opening)
    (hclasses : t.shorthandClasses attr = .ok classes)
    (hnone : t.attributeNamed (t.attributes opening) Vocabulary.style = none) :
    (s.convert attr (t.attributes opening) classes t).failure = none ∧
      Dealt s.annotator.label t (s.convert attr (t.attributes opening) classes t).tree opening
        attr := by
  have hplain : s.generate.Plain := fun _ _ hast => Or.inl ⟨callee, hs ▸ hast⟩
  obtain ⟨ast, hast⟩ : ∃ ast, s.generate classes = .ok ast := ⟨_, by rw [hs]; rfl⟩
  have hsteady := Generator.steady_runtimeCall (hs ▸ hast)
  obtain ⟨v, style, hswap, hconvert⟩ := swapped ht hplain hname hparent hopening hclasses hast
    hsteady (t.attributes opening)
  rw [hconvert]
  have hrework := hswap.reworked s.annotator.label
  have hmoves := hrework.moves
  have hsoundv := hmoves.sound ht
  have hlt : opening < t.size := ht.linked.parent_lt_size hparent
  have hopeningv : v.form opening = .opening := (hmoves.form_eq ht hlt).trans hopening
  obtain ⟨hok, hann, hnote⟩ := annotated_attachAfter hsoundv s.annotator hswap.below hopeningv
    (hswap.parent_of_label ht hopening hname hlabel) classes
  obtain ⟨container, styles, hstylekind, hcontkind, -⟩ := hswap.holds
  have hlinks : ∀ n < t.size, t.form n ≠ .str → (s.annotator.attachAfter style
      (t.attributes opening) classes v).tree.parent n = if n = attr then none else t.parent n := by
    intro n hn hform
    rw [hnote.parent n (Nat.lt_of_lt_of_le hn (hmoves.size_le ht))
      (by rwa [hmoves.form_eq ht hn]), hswap.parent n hn]
  have hattrform : t.form attr ≠ .str := by
    obtain ⟨value, hkind⟩ := attributeName_eq_some hname
    rw [form, hkind]
    simp [Kind.form]
  refine ⟨hok, hrework.annotated ht hopening hann,
    hswap.supplies.trans (hnote.supplies hlabel) hsoundv hann.moves, ?_,
    fun n hn hne hform => ?_, ?_, ?_⟩
  · rw [hlinks attr (lt_size_of_parent hparent) hattrform, if_pos rfl]
  · exact Or.inl ((hlinks n hn hform).trans (if_neg hne))
  · rw [blankStyle, hnone]
    rfl
  · have hfirst : v.attributeNamed (v.attributes opening) Vocabulary.style = some style := by
      have hmem : attr ∈ t.attributes opening := by
        rw [attributes_eq_children hopening]
        exact ht.linked.mem_children.mpr hparent
      obtain ⟨xs, ys, hsplit, hxs⟩ := List.eq_append_cons_of_mem hmem
      have hbefore : ∀ a ∈ xs, ¬ (v.attributeName a == some Vocabulary.style) = true := by
        intro a ha
        have hin : a ∈ t.attributes opening := hsplit ▸ List.mem_append_left _ ha
        rw [hmoves.attributeName_eq ht (lt_size_of_mem_attributes ht.linked hopening hin)]
        exact List.find?_eq_none.mp hnone a hin
      rw [hswap.attributes, hsplit, replace_of_split hxs, attributeNamed, List.find?_append,
        List.find?_eq_none.mpr hbefore,
        List.find?_cons_of_pos (by simp [attributeName, hstylekind])]
      rfl
    have hne : style ≠ opening := Nat.ne_of_gt (Nat.lt_of_lt_of_le hlt hswap.fresh)
    refine blankStyle_eq_none (hnote.attributeNamed hsoundv hann.moves hopeningv hfirst)
      (styleExpression_of_kind ((hann.kind_style hne hstylekind hcontkind).trans hstylekind)
        (hann.kind_eq_of hopeningv hcontkind ?_ ?_ ?_)) <;> simp [Kind.form]

/-- Merging a shorthand attribute deals with it. -/
theorem dealt_merge (ht : t.Sound) (hs : s.generate = Generator.runtimeCall callee)
    (hlabel : s.annotator.label ≠ Vocabulary.shorthand)
    (hname : t.attributeName attr = some Vocabulary.shorthand)
    (hparent : t.parent attr = some opening) (hopening : t.form opening = .opening)
    (hclasses : t.shorthandClasses attr = .ok classes) {style expression : NodeId}
    (hstyle : t.attributeNamed (t.attributes opening) Vocabulary.style = some style)
    (hexpression : t.styleExpression style = some expression) :
    (s.merge attr style opening classes t).failure = none ∧
      Dealt s.annotator.label t (s.merge attr style opening classes t).tree opening attr := by
  have hplain : s.generate.Plain := fun _ _ hast => Or.inl ⟨callee, hs ▸ hast⟩
  obtain ⟨ast, hast⟩ : ∃ ast, s.generate classes = .ok ast := ⟨_, by rw [hs]; rfl⟩
  have hsteady := Generator.steady_runtimeCall (hs ▸ hast)
  obtain ⟨w, hjoin, hmerge⟩ := joined ht hplain hname hparent hopening hclasses hast hsteady hstyle
    hexpression
  rw [hmerge]
  have hrework := hjoin.reworked s.annotator.label
  have hmoves := hrework.moves
  have hsoundw := hmoves.sound ht
  have hsize := hmoves.size_le ht
  have hlt : opening < t.size := ht.linked.parent_lt_size hparent
  have hopeningw : w.form opening = .opening := (hmoves.form_eq ht hlt).trans hopening
  obtain ⟨hok, hann, hnote⟩ := annotated_attachTo hsoundw s.annotator hopeningw
    (fun b hb _ => parent_of_mem_attributes hsoundw.linked hb) classes style
  obtain ⟨container, _, _, hstylekind, -, -, hcontent⟩ := hjoin.holds
  have hsame : ∀ n < t.size, t.form n ≠ .str →
      (s.annotator.attachTo opening (w.attributes opening) classes w).tree.parent n =
        w.parent n := by
    intro n hn hform
    exact hnote.parent n (Nat.lt_of_lt_of_le hn hsize) (by rwa [hmoves.form_eq ht hn])
  have hattrform : t.form attr ≠ .str := by
    obtain ⟨value, hkind⟩ := attributeName_eq_some hname
    rw [form, hkind]
    simp [Kind.form]
  refine ⟨hok, hrework.annotated ht hopening hann,
    hjoin.supplies.trans (hnote.supplies hlabel) hsoundw hann.moves, ?_, fun n hn hne hform => ?_,
    blankStyle_eq_none hstyle hexpression, ?_⟩
  · rw [hsame attr (lt_size_of_parent hparent) hattrform]
    rcases hjoin.parent attr (lt_size_of_parent hparent) with ⟨-, hnone⟩ | ⟨hne, -⟩
    · exact hnone
    · exact absurd rfl hne
  · rcases hjoin.parent n hn with ⟨heq, -⟩ | ⟨-, hkept | ⟨array, hge, harraylt, harray, hn', hup⟩⟩
    · exact absurd heq hne
    · exact Or.inl ((hsame n hn hform).trans hkept)
    · refine Or.inr ⟨array, hge, (hann.moves.form_eq hsoundw harraylt).trans harray,
        (hsame n hn hform).trans hn', ?_⟩
      rw [hnote.parent array harraylt (by rw [harray]; simp), hup]
  · have hfirst : w.attributeNamed (w.attributes opening) Vocabulary.style = some style := by
      have hother : w.attributeName attr ≠ some Vocabulary.style := by
        rw [hmoves.attributeName_eq ht (lt_size_of_parent hparent), hname]
        decide
      rw [attributes_eq_children hopeningw, hjoin.children, attributeNamed_without hother,
        attributeNamed_congr fun a ha => hmoves.attributeName_eq ht (ht.linked.lt_size_of_mem ha),
        ← attributes_eq_children hopening, hstyle]
    have hne : style ≠ opening := by
      rintro rfl
      rw [form, hstylekind] at hopening
      exact absurd hopening (by simp [Kind.form])
    have hstylew := hjoin.kept.trans hstylekind
    have hblank {expression : NodeId} (hcont : w.kind container = .container (some expression)) :
        (s.annotator.attachTo opening (w.attributes opening) classes w).tree.blankStyle opening =
          none := by
      refine blankStyle_eq_none (hnote.attributeNamed hsoundw hann.moves hopeningw hfirst)
        (styleExpression_of_kind ((hann.kind_style hne hstylew hcont).trans hstylew)
          (hann.kind_eq_of hopeningw hcont ?_ ?_ ?_)) <;> simp [Kind.form]
    rcases hcontent with ⟨xs, -, -, hcont⟩ | ⟨-, array, hcont, -⟩
    · exact hblank hcont
    · exact hblank hcont

/-- An attribute fails for the reason that there is, or it is dealt with, or it is none
that is restyled. -/
theorem restyleAttribute_dealt (ht : t.Sound) (hs : s.generate = Generator.runtimeCall callee)
    (hlabel : s.annotator.label ≠ Vocabulary.shorthand) (hparent : t.parent attr = some opening) :
    (s.restyleAttribute attr t).failure = t.shorthandFault attr ∧
      (t.IsRestylable attr →
        Dealt s.annotator.label t (s.restyleAttribute attr t).tree opening attr) ∧
      (¬ t.IsRestylable attr → (s.restyleAttribute attr t).tree = t) := by
  by_cases hname : t.attributeName attr = some Vocabulary.shorthand
  · cases hclasses : t.shorthandClasses attr with
    | error e =>
      have hfault : t.shorthandFault attr = some e := by
        rw [shorthandFault, if_pos hname, hclasses]
      have hstep : s.restyleAttribute attr t = ⟨t, some e⟩ := by
        unfold restyleAttribute
        rw [if_pos hname, hclasses]
      rw [hstep, hfault]
      exact ⟨rfl, fun h => absurd (hfault.symm.trans h.2) (by simp), fun _ => rfl⟩
    | ok classes =>
      have hsome : t.classes attr = some classes := by
        rw [Tree.classes, if_pos hname, hclasses]
        rfl
      obtain ⟨hopening, hstep⟩ := restyleAttribute_of_some (s := s) ht hsome hparent
      have hfault := shorthandFault_of_ok hname hclasses hparent
      rw [hstep, IsRestylable, hfault]
      cases hstyle : t.attributeNamed (t.attributes opening) Vocabulary.style with
      | none =>
        obtain ⟨hok, hdealt⟩ := dealt_convert ht hs hlabel hname hparent hopening hclasses hstyle
        rw [hdealt.before]
        exact ⟨hok, fun _ => hdealt, fun h => absurd ⟨hname, rfl⟩ h⟩
      | some style =>
        dsimp only
        cases hexpression : t.styleExpression style with
        | none =>
          have hblank : t.blankStyle opening = some style := by
            rw [blankStyle, hstyle, Option.filter_some, hexpression]
            rfl
          have hmerge : s.merge attr style opening classes t =
              ⟨t, some ⟨.emptyStyle, t.span style⟩⟩ := by
            unfold merge
            rw [hexpression]
          rw [hmerge, hblank]
          exact ⟨rfl, fun h => absurd h.2 (by simp), fun _ => rfl⟩
        | some expression =>
          obtain ⟨hok, hdealt⟩ := dealt_merge ht hs hlabel hname hparent hopening hclasses hstyle
            hexpression
          rw [hdealt.before]
          exact ⟨hok, fun _ => hdealt, fun h => absurd ⟨hname, rfl⟩ h⟩
  · have hfault : t.shorthandFault attr = none := if_neg hname
    have hstep : s.restyleAttribute attr t = ⟨t, none⟩ := if_neg hname
    rw [hstep, hfault]
    exact ⟨rfl, fun h => absurd h.1 hname, fun _ => rfl⟩

end Stylist

/-- What holds at the start and outlives the visit to an attribute that had none before holds after
visits to any number of attributes. -/
theorem Draft.visits_of_step {Holds : List NodeId → Draft → Prop} {s : Stylist}
    {attributes : List NodeId} (hstep : ∀ {done d x}, Holds done d → x ∈ attributes → x ∉ done →
      Holds (done ++ [x]) (d.visit s x)) {done todo : List NodeId} {d : Draft} (h : Holds done d)
    (hmem : ∀ x ∈ todo, x ∈ attributes) (hnodup : (done ++ todo).Nodup) :
    Holds (done ++ todo) (todo.foldl (Draft.visit s) d) := by
  induction todo generalizing done d with
  | nil => rwa [List.append_nil]
  | cons x rest ih =>
    have hsplit : done ++ x :: rest = done ++ [x] ++ rest := by simp
    have hnew : x ∉ done := by
      rw [List.nodup_append] at hnodup
      exact fun hin => hnodup.2.2 x hin x List.mem_cons_self rfl
    rw [hsplit] at hnodup ⊢
    exact ih (hstep h (hmem x List.mem_cons_self) hnew)
      (fun y hy => hmem y (List.mem_cons_of_mem _ hy)) hnodup

namespace Tree

section Frames

variable {t t' : Tree} {label : Text} {opening attr n : NodeId}

/-- A shorthand attribute that is restyled has a class string. -/
theorem IsRestylable.classes (h : t.IsRestylable attr) :
    ∃ classes, t.shorthandClasses attr = .ok classes := by
  obtain ⟨hname, hfault⟩ := h
  rw [shorthandFault, if_pos hname] at hfault
  cases hclasses : t.shorthandClasses attr with
  | error e => simp [hclasses] at hfault
  | ok classes => exact ⟨classes, rfl⟩

/-- An attribute that can be restyled has classes. -/
theorem IsRestylable.exists_classes (h : t.IsRestylable attr) :
    ∃ classes, t.classes attr = some classes := by
  obtain ⟨classes, hok⟩ := h.classes
  exact ⟨classes, by rw [Tree.classes, if_pos h.1, hok]; rfl⟩

/-- The tag that a restyled attribute stands in. -/
theorem Sound.opening_of_attr (ht : t.Sound) (hform : t.form n = .attr) {p : NodeId}
    (hp : t.parent n = some p) : t.form p = .opening := by
  have hadm := ht.shaped (ht.linked.mem_children.mpr hp)
  rwa [hform] at hadm

namespace Dealt

variable (h : Dealt label t t' opening attr) (ht : t.Sound) (hrestylable : t.IsRestylable attr)
  (hparent : t.parent attr = some opening) (hn : n < t.size) (hform : t.form n = .attr)

include h ht hn hform

/-- Other attributes stay in their tags. -/
theorem parent_eq (hne : n ≠ attr) : t'.parent n = t.parent n := by
  rcases h.links n hn hne (by rw [hform]; decide) with hsame | ⟨array, -, harray, hup, -⟩
  · exact hsame
  · have ht' := h.reworked.moves.sound ht
    have hopening := ht'.opening_of_attr ((h.reworked.moves.form_eq ht hn).trans hform) hup
    exact absurd (hopening.symm.trans harray) (by decide)

include hrestylable hparent

/-- Of the attributes, only the restyled one is detached. -/
theorem isAttached_iff : t'.isAttached n = true ↔ t.isAttached n = true ∧ n ≠ attr := by
  have ht' := h.reworked.moves.sound ht
  by_cases hne : n = attr
  · subst hne
    have hroot : n ≠ root := by
      rintro rfl
      exact absurd (hparent.symm.trans ht.linked.root_free) (by simp)
    rw [ht'.linked.isAttached_iff_parent hroot, h.gone]
    simp
  · rw [isAttached_iff_of_relinked ht.linked ht'.linked fun m hm => ?_]
    · simp [hne]
    · obtain ⟨classes, hclasses⟩ := hrestylable.classes
      obtain ⟨value, hkind⟩ := attributeName_eq_some hrestylable.1
      rcases Relation.ReflTransGen.cases_head hm with rfl | ⟨p, hp, hpm⟩
      · exact h.links n hn hne (by rw [hform]; decide)
      · -- Above the attribute is its tag, and that does not stand in the restyled one.
        have hopening := ht.opening_of_attr hform hp
        have hmattr : m ≠ attr := by
          rintro rfl
          exact not_within_shorthand ht.linked (congrArg Kind.form hkind) hclasses hopening hpm
        refine h.links m (hm.lt_size ht.linked hn) hmattr ?_
        rcases Relation.ReflTransGen.cases_tail hpm with rfl | ⟨c, -, hc⟩
        · rw [hopening]
          decide
        · exact ht.linked.form_ne_str hc

end Dealt

/-- Reworking one tag keeps the blank style attributes of the others. -/
theorem Reworked.blankStyle_eq (h : Reworked label t t' opening) (ht : t.Sound)
    (hopening : t.form opening = .opening) {tag : NodeId} (htag : t.form tag = .opening)
    (hne : tag ≠ opening) : t'.blankStyle tag = t.blankStyle tag := by
  unfold blankStyle
  rw [attributes_congr (h.kind_tag htag hne), attributeNamed_congr fun a ha =>
    h.moves.attributeName_eq ht (lt_size_of_mem_attributes ht.linked htag ha)]
  cases hstyle : t.attributeNamed (t.attributes tag) Vocabulary.style with
  | none => rfl
  | some style =>
    rw [Option.filter_some, Option.filter_some, h.styleExpression_eq ht hopening htag hne
      (parent_of_mem_attributes ht.linked (List.mem_of_find?_eq_some hstyle))]

/-- What is wrong with other attributes, and what is not, stays as it was. -/
theorem Dealt.shorthandFault_eq (h : Dealt label t t' opening attr) (ht : t.Sound)
    (hopening : t.form opening = .opening) (hlabel : label ≠ Vocabulary.shorthand)
    (hn : n < t.size) (hform : t.form n = .attr) (hne : n ≠ attr) :
    t'.shorthandFault n = t.shorthandFault n := by
  have hmoves := h.reworked.moves
  unfold shorthandFault
  rw [hmoves.attributeName_eq ht hn]
  split
  case isTrue hname =>
    rw [h.reworked.shorthandClasses_eq ht hopening hlabel hname, h.parent_eq ht hn hform hne]
    cases t.shorthandClasses n with
    | error e => rfl
    | ok classes =>
      dsimp only
      cases hp : t.parent n with
      | none => rfl
      | some tag =>
        rw [Option.bind_some, Option.bind_some]
        by_cases htag : tag = opening
        · rw [htag, h.before, h.after]
          rfl
        · have htagform := ht.opening_of_attr hform hp
          rw [h.reworked.blankStyle_eq ht hopening htagform htag]
          cases hblank : t.blankStyle tag with
          | none => rfl
          | some style =>
            have hmem : style ∈ t.attributes tag :=
              List.mem_of_find?_eq_some (Option.eq_some_of_filter_eq_some hblank)
            rw [Option.map_some, Option.map_some,
              h.reworked.span style (lt_size_of_mem_attributes ht.linked htagform hmem)]
  case isFalse => rfl

end Frames

/-- The attributes of a module, in the order of the source. -/
def allAttributes (t : Tree) : List NodeId :=
  (t.descendants root).filter fun id => t.form id = .attr

/-- The account after the attributes `done` of the module `t₀`: those that are restylable
are gone, the others have failed if they are shorthand attributes, and nothing has changed
for those that wait. -/
structure Tallied (t₀ : Tree) (done : List NodeId) (d : Draft) : Prop where
  moves : Moves t₀ d.tree
  supplies : Supplies t₀ d.tree
  attached : ∀ n, t₀.form n = .attr →
    (d.tree.isAttached n = true ↔ t₀.isAttached n = true ∧ ¬ (n ∈ done ∧ t₀.IsRestylable n))
  fault : ∀ n, t₀.form n = .attr → n ∉ done → d.tree.shorthandFault n = t₀.shorthandFault n
  failures : d.failures = done.filterMap t₀.shorthandFault
  seen : d.seen = ⟨done.any fun n => t₀.attributeName n == some Vocabulary.style,
    done.any fun n => t₀.attributeName n == some Vocabulary.shorthand⟩

theorem Tallied.start (t₀ : Tree) : Tallied t₀ [] { tree := t₀ } where
  moves := .refl
  supplies := .of_size_le (Nat.le_refl _)
  attached n _ := by simp
  fault _ _ _ := rfl
  failures := rfl
  seen := rfl

section Runs

variable {s : Stylist} {callee : Text} {t₀ : Tree} {done : List NodeId} {d : Draft} {x : NodeId}
  (ht₀ : t₀.Sound) (hs : s.generate = Generator.runtimeCall callee)
  (hlabel : s.annotator.label ≠ Vocabulary.shorthand)

include ht₀ hs hlabel

omit hs hlabel in
/-- When the turn of an attribute comes, it is attached to its tag, and whether it is
restylable is what it was in the module as it was read. -/
theorem Tallied.turn (hd : Tallied t₀ done d) (hx : x ∈ t₀.allAttributes) (hnew : x ∉ done) :
    d.tree.isAttached x = true ∧ d.tree.attributeName x = t₀.attributeName x ∧
      (d.tree.IsRestylable x ↔ t₀.IsRestylable x) ∧
      ∃ p, d.tree.parent x = some p ∧ d.tree.form p = .opening := by
  obtain ⟨hmem, hform⟩ := List.mem_filter.mp hx
  have hform : t₀.form x = .attr := of_decide_eq_true hform
  have hlt : x < t₀.size := lt_size_of_form (by rw [hform]; decide)
  have ht := hd.moves.sound ht₀
  have hattached : d.tree.isAttached x = true :=
    (hd.attached x hform).mpr ⟨ht₀.linked.isAttached_iff_mem_descendants.mpr (Or.inr hmem),
      fun h => hnew h.1⟩
  have hne : x ≠ root := by
    rintro rfl
    exact ht₀.linked.not_below_self _ (ht₀.linked.mem_descendants_iff.mp hmem)
  obtain ⟨p, hp⟩ := ht.linked.exists_parent hattached hne
  have hname : d.tree.attributeName x = t₀.attributeName x := hd.moves.attributeName_eq ht₀ hlt
  refine ⟨hattached, hname, ?_, p, hp,
    ht.opening_of_attr ((hd.moves.form_eq ht₀ hlt).trans hform) hp⟩
  rw [IsRestylable, hname, hd.fault x hform hnew, IsRestylable]

/-- When the turn of an attribute comes, it is attached, it fails as it would have failed
in the module as it was read, and the account goes on. -/
theorem Tallied.visit (hd : Tallied t₀ done d) (hx : x ∈ t₀.allAttributes) (hnew : x ∉ done) :
    d.tree.isAttached x = true ∧ (s.restyleAttribute x d.tree).failure = t₀.shorthandFault x ∧
      Tallied t₀ (done ++ [x]) (d.visit s x) := by
  have hform : t₀.form x = .attr := of_decide_eq_true (List.mem_filter.mp hx).2
  have hlt : x < t₀.size := lt_size_of_form (by rw [hform]; decide)
  have ht := hd.moves.sound ht₀
  have hsize := hd.moves.size_le ht₀
  obtain ⟨hattached, hname, hrestylable, p, hp, hopening⟩ := hd.turn ht₀ hx hnew
  have hfault := hd.fault x hform hnew
  obtain ⟨hfailure, hdealt, hsame⟩ := Stylist.restyleAttribute_dealt ht hs hlabel hp
  have hvisit : d.visit s x = ⟨(s.restyleAttribute x d.tree).tree, d.seen.note (t₀.attributeName x),
      d.failures ++ (t₀.shorthandFault x).toList⟩ := by
    unfold Draft.visit
    rw [if_pos hattached]
    dsimp only
    rw [hfailure, hfault, hname]
  refine ⟨hattached, hfailure.trans hfault, ?_⟩
  have hfailures : d.failures ++ (t₀.shorthandFault x).toList =
      (done ++ [x]).filterMap t₀.shorthandFault := by
    rw [hd.failures, List.filterMap_append, List.filterMap_cons, List.filterMap_nil]
    cases t₀.shorthandFault x <;> rfl
  have hseen : d.seen.note (t₀.attributeName x) =
      ⟨(done ++ [x]).any fun n => t₀.attributeName n == some Vocabulary.style,
        (done ++ [x]).any fun n => t₀.attributeName n == some Vocabulary.shorthand⟩ := by
    simp [Seen.note, hd.seen]
  rw [hvisit]
  by_cases hdo : t₀.IsRestylable x
  · have h := hdealt (hrestylable.mpr hdo)
    refine ⟨hd.moves.trans h.reworked.moves, hd.supplies.trans h.supplies ht h.reworked.moves,
      fun n hn => ?_, fun n hn hnot => ?_, hfailures, hseen⟩
    · have hnlt : n < t₀.size := lt_size_of_form (by rw [hn]; decide)
      rw [h.isAttached_iff ht (hrestylable.mpr hdo) hp (Nat.lt_of_lt_of_le hnlt hsize)
        ((hd.moves.form_eq ht₀ hnlt).trans hn), hd.attached n hn]
      grind
    · have hnlt : n < t₀.size := lt_size_of_form (by rw [hn]; decide)
      obtain ⟨hnot, hnx⟩ : n ∉ done ∧ n ≠ x := by simpa using hnot
      rw [h.shorthandFault_eq ht hopening hlabel (Nat.lt_of_lt_of_le hnlt hsize)
        ((hd.moves.form_eq ht₀ hnlt).trans hn) hnx, hd.fault n hn hnot]
  · rw [hsame (fun h => hdo (hrestylable.mp h))]
    refine ⟨hd.moves, hd.supplies, fun n hn => ?_, fun n hn hnot => ?_, hfailures, hseen⟩
    · rw [hd.attached n hn]
      grind
    · exact hd.fault n hn fun h => hnot (List.mem_append_left _ h)

/-- The account after all attributes of a list. -/
theorem Tallied.run (hd : Tallied t₀ done d) {todo : List NodeId}
    (hmem : ∀ x ∈ todo, x ∈ t₀.allAttributes) (hnodup : (done ++ todo).Nodup) :
    Tallied t₀ (done ++ todo) (todo.foldl (Draft.visit s) d) := by
  refine Draft.visits_of_step (fun hd hx hnew => ?_) hd hmem hnodup
  obtain ⟨-, -, hnext⟩ := hd.visit ht₀ hs hlabel hx hnew
  exact hnext

/-- The account at any time on the way through the attributes of a module. -/
theorem tallied_of_split {todo : List NodeId} (hsplit : t₀.allAttributes = done ++ todo) :
    Tallied t₀ done (done.foldl (Draft.visit s) { tree := t₀ }) := by
  have hnodup : (done ++ todo).Nodup := hsplit ▸ (ht₀.linked.nodup_descendants root).filter _
  have hmem : ∀ x ∈ done, x ∈ t₀.allAttributes := fun x hx =>
    hsplit ▸ List.mem_append_left _ hx
  have h := (Tallied.start t₀).run ht₀ hs hlabel hmem (List.nodup_append.mp hnodup).1
  rwa [List.nil_append] at h

end Runs

end Tree

end JsxStyle
