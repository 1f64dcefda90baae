import JsxStyle.Proofs.CheckedTree
import JsxStyle.Proofs.Handlers

/-!
# Checked handlers
-/

namespace JsxStyle

namespace Checked

variable {ε : Type}

/-! ## Lookups -/

/-- The class string of a shorthand attribute: a string, a string in braces, or nothing. -/
def shorthandClasses (t : Tree) (attr : NodeId) : Checked ε (Except StyleError Text) := do
  match ← attributeValue t attr with
  | none => return .ok []
  | some value =>
    match ← kindAt t value with
    | .str classes _ => return .ok classes
    | .container (some expression) =>
      match ← kindAt t expression with
      | .str classes _ => return .ok classes
      | _ => return .error ⟨.invalidShorthand, (← nodeAt t expression).span⟩
    | _ => return .error ⟨.invalidShorthand, (← nodeAt t value).span⟩

/-- The expression between the braces of a style attribute. -/
def styleExpression (t : Tree) (style : NodeId) : Checked ε (Option NodeId) := do
  match ← attributeValue t style with
  | none => return none
  | some value =>
    match ← kindAt t value with
    | .container expression => return expression
    | _ => return none

/-- Whether a template stands where templates may stand. -/
def permits (scope : Scope) (template : NodeId) (t : Tree) : Checked ε Bool :=
  if scope.allowAnywhere then pure true
  else do
    match ← enclosing t template .attr with
    | none => return false
    | some attr => return (← attributeName t attr) == some Vocabulary.style

/-! ## Annotations -/

/-- Extends the annotation among `attributes`; fails if there is none with a value. -/
def extend (a : Annotator) (attributes : List NodeId) (classes : Text) (t : Tree) :
    Checked ε (Option Tree) := do
  match ← attributeNamed t attributes a.label with
  | none => return none
  | some existing =>
    match ← attributeValue t existing with
    | none => return none
    | some value =>
      match ← kindAt t value with
      | .str text quote => do
        let (updated, t) ← alloc (.str (Annotator.extended text classes) quote) none t
        return some (← replace value updated t)
      | _ => return some t

/-- Adds the node of a new annotation. -/
def fresh (a : Annotator) (classes : Text) (t : Tree) : Checked ε (NodeId × Tree) := do
  let (value, t) ← alloc (.str classes '"') none t
  alloc (.attr a.label (some value)) none t

/-- Extends the annotation among `attributes`, or puts a new one in with `insert`. -/
def annotate (a : Annotator) (insert : NodeId → Tree → Checked ε (Option Tree)) (target : NodeId)
    (attributes : List NodeId) (classes : Text) (t : Tree) : Checked ε Step :=
  if a.enabled then do
    match ← extend a attributes classes.collapse t with
    | some extended => return ⟨extended, none⟩
    | none => do
      let (new, t) ← fresh a classes.collapse t
      match ← insert new t with
      | some inserted => return ⟨inserted, none⟩
      | none => return ⟨t, some ⟨.missingElement, (← nodeAt t target).span⟩⟩
  else return ⟨t, none⟩

/-- Annotates an element behind its style attribute `style`. -/
def attachAfter (a : Annotator) (style : NodeId) (attributes : List NodeId) (classes : Text)
    (t : Tree) : Checked ε Step :=
  annotate a (fun new t => insertAfter style new t) style attributes classes t

/-- Annotates the element that `opening` opens, behind its other attributes. -/
def attachTo (a : Annotator) (opening : NodeId) (attributes : List NodeId) (classes : Text)
    (t : Tree) : Checked ε Step :=
  annotate a (fun new t => append opening new t) opening attributes classes t

/-! ## Attributes and references -/

/-- Appends `styles` to the style expression of an element. -/
def mergeStyles (expression styles : NodeId) (t : Tree) : Checked ε Tree := do
  if (← kindAt t expression).form = .array then return (← append expression styles t).getD t
  else return (← replaceWith expression (fun t => alloc (.array [expression, styles]) none t) t).2

/-- Moves the classes of a shorthand attribute into the style attribute beside it. -/
def merge (s : Stylist) (attr style opening : NodeId) (classes : Text) (t : Tree) :
    Checked ε Step := do
  match ← styleExpression t style with
  | none => return ⟨t, some ⟨.emptyStyle, (← nodeAt t style).span⟩⟩
  | some expression =>
    match s.generate classes with
    | .error e => return ⟨t, some e⟩
    | .ok ast => do
      let (styles, t) ← (graft ast).run t
      let t ← mergeStyles expression styles (← remove attr t)
      attachTo s.annotator opening (← attributes t opening) classes t

/-- Puts a style attribute in the place of a shorthand attribute. -/
def convert (s : Stylist) (attr : NodeId) (attributes : List NodeId) (classes : Text) (t : Tree) :
    Checked ε Step :=
  match s.generate classes with
  | .error e => return ⟨t, some e⟩
  | .ok ast => do
    let (styles, t) ← (graft ast).run t
    let (container, t) ← alloc (.container (some styles)) none t
    let (style, t) ← alloc (.attr Vocabulary.style (some container)) none t
    attachAfter s.annotator style attributes classes (← replaceAt attr style t)

/-- Restyles an attribute if it is a shorthand attribute. -/
def restyleAttribute (s : Stylist) (attr : NodeId) (t : Tree) : Checked ε Step := do
  if (← attributeName t attr) = some Vocabulary.shorthand then
    match ← shorthandClasses t attr with
    | .error e => return ⟨t, some e⟩
    | .ok classes =>
      match ← enclosing t attr .opening with
      | none => return ⟨t, some ⟨.missingElement, (← nodeAt t attr).span⟩⟩
      | some opening => do
        let attributes ← attributes t opening
        match ← attributeNamed t attributes Vocabulary.style with
        | some style => merge s attr style opening classes t
        | none => convert s attr attributes classes t
  else return ⟨t, none⟩

/-- Annotates the element around a reference, if there is one. -/
def annotateAround (s : Stylist) (reference : NodeId) (classes : Text) (t : Tree) :
    Checked ε Step := do
  match ← enclosing t reference .opening with
  | none => return ⟨t, none⟩
  | some opening => attachTo s.annotator opening (← attributes t opening) classes t

/-- Puts the style for `classes` in the place of a template. -/
def replaceTemplate (s : Stylist) (template : NodeId) (classes : Text) (t : Tree) :
    Checked ε Step :=
  match s.generate classes with
  | .error e => return ⟨t, some e⟩
  | .ok ast => do
    let (styles, t) ← (graft ast).run t
    return ⟨← replaceAt template styles t, none⟩

/-- Restyles a reference to the style builder if it tags a template that is known in advance. -/
def restyleReference (s : Stylist) (scope : Scope) (reference : NodeId) (t : Tree) :
    Checked ε Step := do
  if ← isAttached t reference then
    match ← enclosing t reference .template with
    | none => return ⟨t, none⟩
    | some template =>
      if ← permits scope template t then
        match ← staticClasses t template scope.builder with
        | none => return ⟨t, none⟩
        | some classes =>
          match ← annotateAround s reference classes t with
          | ⟨t, some e⟩ => return ⟨t, some e⟩
          | ⟨t, none⟩ => replaceTemplate s template classes t
      else return ⟨t, some ⟨.styleRestricted, (← nodeAt t template).span⟩⟩
  else return ⟨t, none⟩

/-- Restyles references one after the other, going on after failures. -/
def restyleReferences (s : Stylist) (scope : Scope) :
    List NodeId → Tree → Checked ε (List StyleError × Tree)
  | [], t => return ([], t)
  | reference :: rest, t => do
    let step ← restyleReference s scope reference t
    let (failures, t) ← restyleReferences s scope rest step.tree
    return (step.failure.toList ++ failures, t)

/-! ## What the checks find -/

section Lookups

variable {t : Tree} {id : NodeId}

/-- The classes of a shorthand attribute are found without a fault. -/
theorem shorthandClasses_eq (ht : t.Linked) (h : id < t.size) :
    (shorthandClasses t id : Checked ε _) = pure (t.shorthandClasses id) := by
  rw [shorthandClasses, Tree.shorthandClasses, attributeValue_eq h, pure_bind]
  cases hvalue : t.attributeValue id with
  | none => rfl
  | some value =>
    obtain ⟨name, hattr⟩ := Tree.attributeValue_eq_some hvalue
    have hlt := Tree.lt_size_of_parent (ht.parent_of_kind hattr (List.mem_singleton_self value))
    dsimp only
    rw [kindAt_eq hlt, pure_bind]
    cases hkind : t.kind value with
    | str classes quote => rfl
    | container expression =>
      cases expression with
      | none =>
        dsimp only
        rw [nodeAt_eq hlt]
        rfl
      | some expression =>
        have hlt' := Tree.lt_size_of_parent
          (ht.parent_of_kind hkind (List.mem_singleton_self expression))
        dsimp only
        rw [kindAt_eq hlt', pure_bind]
        cases t.kind expression with
        | str classes quote => rfl
        | _ =>
          dsimp only
          rw [nodeAt_eq hlt']
          rfl
    | _ =>
      dsimp only
      rw [nodeAt_eq hlt]
      rfl

/-- The style expression of an attribute is found without a fault. -/
theorem styleExpression_eq (ht : t.Linked) (h : id < t.size) :
    (styleExpression t id : Checked ε _) = pure (t.styleExpression id) := by
  rw [styleExpression, Tree.styleExpression, attributeValue_eq h, pure_bind]
  cases hvalue : t.attributeValue id with
  | none => rfl
  | some value =>
    obtain ⟨name, hattr⟩ := Tree.attributeValue_eq_some hvalue
    have hlt := Tree.lt_size_of_parent (ht.parent_of_kind hattr (List.mem_singleton_self value))
    dsimp only
    rw [kindAt_eq hlt, pure_bind, Option.map_eq_map, Option.map_some]
    cases t.kind value <;> rfl

/-- Whether a scope permits a reference is found without a fault. -/
theorem permits_eq (ht : t.Linked) (scope : Scope) (h : id < t.size) :
    (permits scope id t : Checked ε Bool) = pure (Stylist.permits scope id t) := by
  rw [permits, Stylist.permits]
  split
  case isTrue hanywhere => rw [hanywhere, Bool.true_or]
  case isFalse hanywhere =>
    rw [Bool.not_eq_true] at hanywhere
    rw [hanywhere, Bool.false_or, enclosing_eq ht h, pure_bind]
    cases henclosing : t.enclosing id .attr with
    | none => rfl
    | some attr =>
      dsimp only
      rw [attributeName_eq (ht.form_of_enclosing henclosing).2, pure_bind]
      rfl

end Lookups

section Annotations

variable {t : Tree} {a : Annotator} {ids : List NodeId}

/-- The search for an annotation to extend never faults on a sound store. -/
theorem extend_eq (ht : t.Sound) (hids : ∀ id ∈ ids, id < t.size) (classes : Text) :
    (extend a ids classes t : Checked ε _) = pure (a.extend ids classes t) := by
  have hr : ∀ t', a.extend ids classes t = some t' → t'.Linked := fun t' h =>
    ((Tree.moves_extend ht h).sound ht).linked
  rw [extend, attributeNamed_eq a.label hids, pure_bind]
  unfold Annotator.extend at hr ⊢
  cases hexisting : t.attributeNamed ids a.label with
  | none => rfl
  | some existing =>
    have hlt := hids existing (List.mem_of_find?_eq_some hexisting)
    rw [hexisting] at hr
    simp only [Option.bind_eq_bind, Option.bind_some] at hr ⊢
    rw [attributeValue_eq hlt, pure_bind]
    cases hvalue : t.attributeValue existing with
    | none => rfl
    | some value =>
      obtain ⟨name, hattr⟩ := Tree.attributeValue_eq_some hvalue
      have hlt := Tree.lt_size_of_parent
        (ht.linked.parent_of_kind hattr (List.mem_singleton_self value))
      rw [hvalue] at hr
      simp only [Option.bind_some] at hr ⊢
      rw [kindAt_eq hlt, pure_bind]
      cases hkind : t.kind value with
      | str text quote =>
        rw [hkind] at hr
        have hadds :
            Tree.Adds t (t.alloc (.str (Annotator.extended text classes) quote) none).2 t.size :=
          .leaf t rfl
        simp only [Tree.alloc_fst] at hr ⊢
        rw [alloc_eq (by simp [Kind.children]), pure_bind, Tree.alloc_fst,
          replace_eq (hadds.moves.sound ht).linked (Nat.lt_of_lt_of_le hlt (hadds.moves.size_le ht))
            hadds.lt_size (hr _ rfl), pure_bind]
        rfl
      | _ => rfl

/-- A fresh annotation is made without a fault. -/
theorem fresh_eq (a : Annotator) (classes : Text) (t : Tree) :
    (fresh a classes t : Checked ε _) = pure (a.fresh classes t) := by
  rw [fresh, alloc_eq (by simp [Kind.children]), pure_bind]
  refine alloc_eq (fun c hc => ?_) none
  obtain rfl : c = t.size := by simpa [Kind.children] using hc
  exact (Tree.Adds.leaf t rfl).lt_size

/-- Annotating finds what it looks for if putting in an attribute does. -/
theorem annotate_eq (ht : t.Sound) {insert' : NodeId → Tree → Checked ε (Option Tree)}
    {insert : NodeId → Tree → Option Tree} {target : NodeId} (htarget : target < t.size)
    (hids : ∀ id ∈ ids, id < t.size) (classes : Text)
    (hinsert : insert' (a.fresh classes.collapse t).1 (a.fresh classes.collapse t).2 =
      pure (insert (a.fresh classes.collapse t).1 (a.fresh classes.collapse t).2)) :
    annotate a insert' target ids classes t = pure (a.annotate insert target ids classes t) := by
  rw [annotate, Annotator.annotate]
  split
  · rw [extend_eq ht hids, pure_bind]
    cases a.extend ids classes.collapse t with
    | some extended => rfl
    | none =>
      have hadds := (Tree.adds_fresh ht.linked a classes.collapse).1
      have hlt := Nat.lt_of_lt_of_le htarget (hadds.moves.size_le ht)
      dsimp only
      rw [fresh_eq, pure_bind, hinsert, pure_bind]
      cases insert (a.fresh classes.collapse t).1 (a.fresh classes.collapse t).2 with
      | some inserted => rfl
      | none =>
        dsimp only
        rw [nodeAt_eq hlt, pure_bind]
        rfl
  · rfl

/-- Annotating a tag of a sound store never faults. -/
theorem attachTo_eq (ht : t.Sound) (a : Annotator) {opening : NodeId}
    (hform : t.form opening = .opening) (hids : ∀ id ∈ ids, id < t.size) (classes : Text) :
    (attachTo a opening ids classes t : Checked ε _) = pure (a.attachTo opening ids classes t) := by
  have hlt : opening < t.size := Tree.lt_size_of_form (by rw [hform]; decide)
  obtain ⟨hadds, hnew⟩ := Tree.adds_fresh ht.linked a classes.collapse
  have hu := hadds.moves.sound ht
  refine annotate_eq ht hlt hids classes
    (append_eq (Nat.lt_of_lt_of_le hlt (hadds.moves.size_le ht)) hadds.lt_size fun t' h => ?_)
  refine (hu.append h (Nat.lt_of_lt_of_le hlt (hadds.moves.size_le ht))
    (hadds.free ht.linked hlt) ?_).linked
  rw [hadds.form_eq hlt, hform, hnew]
  rfl

/-- Annotating a tag behind its style attribute never faults on a sound store. -/
theorem attachAfter_eq (ht : t.Sound) (a : Annotator) {style opening : NodeId}
    (hparent : t.parent style = some opening) (hform : t.form opening = .opening)
    (hids : ∀ id ∈ ids, id < t.size) (classes : Text) :
    (attachAfter a style ids classes t : Checked ε _) =
      pure (a.attachAfter style ids classes t) := by
  have hlt : opening < t.size := ht.linked.parent_lt_size hparent
  have hstyle : style < t.size := Tree.lt_size_of_parent hparent
  obtain ⟨hadds, hnew⟩ := Tree.adds_fresh ht.linked a classes.collapse
  have hu := hadds.moves.sound ht
  refine annotate_eq ht hstyle hids classes
    (insertAfter_eq hu.linked (Nat.lt_of_lt_of_le hstyle (hadds.moves.size_le ht)) hadds.lt_size
      fun t' h => ?_)
  refine (hu.insertAfter h ((hadds.parent_eq hstyle).trans hparent)
    (hadds.free ht.linked hlt) ?_).linked
  rw [hadds.form_eq hlt, hform, hnew]
  rfl

end Annotations

section Handlers

variable {t : Tree} {s : Stylist}

/-- The attributes of a tag are there. -/
theorem lt_size_of_mem_attributes (ht : t.Linked) (opening : NodeId) :
    ∀ id ∈ t.attributes opening, id < t.size :=
  fun _ h => Tree.lt_size_of_parent (Tree.parent_of_mem_attributes ht h)

/-- Putting a style behind an expression never faults where both are in the store. -/
theorem mergeStyles_eq (ht : t.Linked) {expression styles : NodeId}
    (hexpression : expression < t.size)
    (hstyles : styles < t.size) (hr : (Stylist.mergeStyles expression styles t).Linked) :
    (mergeStyles expression styles t : Checked ε _) =
      pure (Stylist.mergeStyles expression styles t) := by
  rw [mergeStyles, kindAt_eq hexpression, pure_bind]
  unfold Stylist.mergeStyles at hr ⊢
  rw [show (t.kind expression).form = t.form expression from rfl]
  split
  case isTrue hform =>
    rw [if_pos hform] at hr
    rw [append_eq hexpression hstyles fun t' h => by rwa [h] at hr, pure_bind]
  case isFalse hform =>
    rw [if_neg hform] at hr
    have hsize : (Tree.alloc (.array [expression, styles]) none
        (t.setParent none expression)).2.size = t.size + 1 := by
      rw [Tree.size_alloc, Tree.size_setParent]
    rw [replaceWith_eq ht hexpression (alloc_eq ?_ none) ?_ ?_ hr, pure_bind]
    · rw [Tree.size_setParent]
      exact List.forall_mem_cons.mpr ⟨hexpression, by simpa using hstyles⟩
    · rw [hsize]
      exact Nat.le_succ _
    · rw [hsize, Tree.alloc_fst, Tree.size_setParent]
      exact Nat.lt_succ_self _

/-- Merging a style into an attribute never faults on a sound store. -/
theorem merge_eq (ht : t.Sound) (hs : s.generate.Plain) {attr style opening : NodeId}
    (hattr : t.form attr = .attr) (hparent : t.parent attr = some opening)
    (hopening : t.form opening = .opening) (hstyle : style < t.size) (classes : Text) :
    (merge s attr style opening classes t : Checked ε _) =
      pure (s.merge attr style opening classes t) := by
  rw [merge, Stylist.merge, styleExpression_eq ht.linked hstyle, pure_bind]
  cases hexpression : t.styleExpression style with
  | none =>
    dsimp only
    rw [nodeAt_eq hstyle]
    rfl
  | some expression =>
    dsimp only
    cases hast : s.generate classes with
    | error e => rfl
    | ok ast =>
      obtain ⟨-, container, -, -, hcontainer, hloose⟩ := ht.style_parts hexpression
      obtain ⟨hadds, hstyles⟩ := Tree.adds_generated ht.linked hs hast
      dsimp only
      rw [graft_eq ast ht.linked, pure_bind]
      generalize (Tree.graft ast).run t = run at *
      obtain ⟨styles, u⟩ := run
      dsimp only at *
      obtain ⟨hremoved, -, hmerged⟩ := Stylist.moves_remove_mergeStyles ht hattr hparent hopening
        hcontainer hloose hadds hstyles
      have hu := hadds.moves.sound ht
      have hv := hremoved.sound ht
      have hw := hmerged.sound hv
      have hlt := Nat.lt_of_lt_of_le (Tree.lt_size_of_parent hparent) (hadds.moves.size_le ht)
      have hall : Tree.Moves t (Stylist.mergeStyles expression styles (u.remove attr)) :=
        hremoved.trans hmerged
      have hopening' := (hall.form_eq ht (ht.linked.parent_lt_size hparent)).trans hopening
      have hattrlt := Tree.lt_size_of_parent hparent
      have hsize := (Tree.editAt_remove hu.linked ((hadds.parent_eq hattrlt).trans hparent)).size
      rw [remove_eq hu.linked hlt hv.linked, pure_bind, mergeStyles_eq hv.linked ?_ ?_ hw.linked,
        pure_bind, attributes_eq ?_, pure_bind,
        attachTo_eq hw _ hopening' (lt_size_of_mem_attributes hw.linked _)]
      · exact Tree.lt_size_of_form (by rw [hopening']; decide)
      · exact Nat.lt_of_lt_of_le (Tree.lt_size_of_parent hcontainer) (hremoved.size_le ht)
      · exact hsize ▸ hadds.lt_size

/-- Turning a class attribute into a style attribute never faults on a sound store. -/
theorem convert_eq (ht : t.Sound) (hs : s.generate.Plain) {attr opening : NodeId}
    (hparent : t.parent attr = some opening) (hopening : t.form opening = .opening)
    {ids : List NodeId} (hids : ∀ id ∈ ids, id < t.size) (classes : Text) :
    (convert s attr ids classes t : Checked ε _) = pure (s.convert attr ids classes t) := by
  rw [convert, Stylist.convert]
  cases hast : s.generate classes with
  | error e => rfl
  | ok ast =>
    obtain ⟨hstyles, hloose⟩ := Tree.adds_generated ht.linked hs hast
    dsimp only
    rw [graft_eq ast ht.linked, pure_bind]
    generalize (Tree.graft ast).run t = run at *
    obtain ⟨styles, u⟩ := run
    dsimp only at *
    rw [alloc_eq ?_, pure_bind]
    · rw [alloc_eq ?_, pure_bind]
      · obtain ⟨hadds, hkind, -, -⟩ := hstyles.styleAttribute ht.linked hloose
        rw [Tree.alloc_fst, Tree.alloc_fst]
        generalize (Tree.alloc (.attr Vocabulary.style (some u.size)) none
          (u.alloc (.container (some styles)) none).2).2 = w at *
        generalize (u.alloc (.container (some styles)) none).2.size = style at *
        obtain ⟨hreplaced, hnew⟩ :=
          Stylist.moves_styleAttribute ht hparent hopening hadds (congrArg Kind.form hkind)
        have hw := hadds.moves.sound ht
        have hall : Tree.Moves t (w.replaceAt attr style) := hadds.moves.trans hreplaced
        have hr := hall.sound ht
        have hlt := Nat.lt_of_lt_of_le (Tree.lt_size_of_parent hparent) (hadds.moves.size_le ht)
        rw [replaceAt_eq hw.linked hlt hadds.lt_size hr.linked, pure_bind,
          attachAfter_eq hr _ hnew ?_ fun id hid =>
            Nat.lt_of_lt_of_le (hids id hid) (hall.size_le ht)]
        rw [hall.form_eq ht (ht.linked.parent_lt_size hparent), hopening]
      · intro c hc
        obtain rfl : c = u.size := by simpa [Kind.children, Tree.alloc_fst] using hc
        rw [Tree.size_alloc]
        exact Nat.lt_succ_self _
    · intro c hc
      obtain rfl : c = styles := by simpa [Kind.children] using hc
      exact hstyles.lt_size

/-- Restyling an attribute of a sound store never faults. -/
theorem restyleAttribute_eq (ht : t.Sound) (hs : s.generate.Plain) {attr : NodeId}
    (hattr : attr < t.size) :
    (restyleAttribute s attr t : Checked ε _) = pure (s.restyleAttribute attr t) := by
  rw [restyleAttribute, Stylist.restyleAttribute, attributeName_eq hattr, pure_bind]
  split
  case isTrue hname =>
    obtain ⟨value, hkind⟩ := Tree.attributeName_eq_some hname
    have hform : t.form attr = .attr := congrArg Kind.form hkind
    rw [shorthandClasses_eq ht.linked hattr, pure_bind]
    cases t.shorthandClasses attr with
    | error e => rfl
    | ok classes =>
      dsimp only
      rw [enclosing_eq ht.linked hattr, pure_bind]
      cases henclosing : t.enclosing attr .opening with
      | none =>
        dsimp only
        rw [nodeAt_eq hattr]
        rfl
      | some opening =>
        obtain ⟨hparent, hopening⟩ := ht.parent_of_enclosing hform henclosing
        have hids := lt_size_of_mem_attributes ht.linked opening
        dsimp only
        rw [attributes_eq (ht.linked.parent_lt_size hparent), pure_bind,
          attributeNamed_eq _ hids, pure_bind]
        cases hstyle : t.attributeNamed (t.attributes opening) Vocabulary.style with
        | none => exact convert_eq ht hs hparent hopening hids classes
        | some style =>
          exact merge_eq ht hs hform hparent hopening
            (hids style (List.mem_of_find?_eq_some hstyle)) classes
  case isFalse => rfl

/-- Annotating the element around a reference never faults on a sound store. -/
theorem annotateAround_eq (ht : t.Sound) {reference : NodeId} (h : reference < t.size)
    (classes : Text) : (annotateAround s reference classes t : Checked ε _) =
      pure (s.annotateAround reference classes t) := by
  rw [annotateAround, Stylist.annotateAround, enclosing_eq ht.linked h, pure_bind]
  cases henclosing : t.enclosing reference .opening with
  | none => rfl
  | some opening =>
    obtain ⟨hform, hlt⟩ := ht.linked.form_of_enclosing henclosing
    dsimp only
    rw [attributes_eq hlt, pure_bind,
      attachTo_eq ht _ hform (lt_size_of_mem_attributes ht.linked _)]

/-- Putting a style in the place of a template never faults on a sound store. -/
theorem replaceTemplate_eq (ht : t.Sound) (hs : s.generate.Plain) {template : NodeId}
    (htemplate : template < t.size) (classes : Text) :
    (replaceTemplate s template classes t : Checked ε _) =
      pure (s.replaceTemplate template classes t) := by
  have hmoves := Stylist.moves_replaceTemplate ht hs htemplate classes
  rw [replaceTemplate]
  unfold Stylist.replaceTemplate at hmoves ⊢
  cases hast : s.generate classes with
  | error e => rfl
  | ok ast =>
    rw [hast] at hmoves
    obtain ⟨hadds, hloose⟩ := Tree.adds_generated ht.linked hs hast
    dsimp only at hmoves ⊢
    rw [graft_eq ast ht.linked, pure_bind]
    generalize (Tree.graft ast).run t = run at *
    obtain ⟨styles, u⟩ := run
    dsimp only at *
    rw [replaceAt_eq (hadds.moves.sound ht).linked
      (Nat.lt_of_lt_of_le htemplate (hadds.moves.size_le ht)) hadds.lt_size
      (hmoves.sound ht).linked,
      pure_bind]

/-- Restyling a reference in a sound store never faults. -/
theorem restyleReference_eq (ht : t.Sound) (hs : s.generate.Plain) (scope : Scope)
    {reference : NodeId} (h : reference < t.size) :
    (restyleReference s scope reference t : Checked ε _) =
      pure (s.restyleReference scope reference t) := by
  rw [restyleReference, Stylist.restyleReference, isAttached_eq ht.linked h, pure_bind]
  split
  · rw [enclosing_eq ht.linked h, pure_bind]
    cases henclosing : t.enclosing reference .template with
    | none => rfl
    | some template =>
      have hlt := (ht.linked.form_of_enclosing henclosing).2
      dsimp only
      rw [permits_eq ht.linked scope hlt, pure_bind]
      split
      · rw [staticClasses_eq ht.linked hlt, pure_bind]
        cases t.staticClasses template scope.builder with
        | none => rfl
        | some classes =>
          have hmoves := Stylist.moves_annotateAround (s := s) ht reference classes
          dsimp only
          rw [annotateAround_eq ht h, pure_bind]
          generalize s.annotateAround reference classes t = step at hmoves ⊢
          obtain ⟨u, failure⟩ := step
          cases failure with
          | some e => rfl
          | none =>
            exact replaceTemplate_eq (hmoves.sound ht) hs
              (Nat.lt_of_lt_of_le hlt (hmoves.size_le ht)) classes
      · rw [nodeAt_eq hlt]
        rfl
  · rfl

/-- Restyling any references in a sound store, one after the other, never faults. -/
theorem restyleReferences_eq (ht : t.Sound) (hs : s.generate.Plain) (scope : Scope)
    {references : List NodeId} (h : ∀ reference ∈ references, reference < t.size) :
    (restyleReferences s scope references t : Checked ε _) =
      pure (s.restyleReferences scope references t) := by
  induction references generalizing t with
  | nil => rfl
  | cons reference rest ih =>
    obtain ⟨hreference, hrest⟩ := List.forall_mem_cons.mp h
    have hmoves := Stylist.moves_restyleReference ht hs scope reference
    rw [restyleReferences, Stylist.restyleReferences, restyleReference_eq ht hs scope hreference,
      pure_bind, ih (hmoves.sound ht) fun id hid =>
        Nat.lt_of_lt_of_le (hrest id hid) (hmoves.size_le ht), pure_bind]

end Handlers

end Checked

end JsxStyle
