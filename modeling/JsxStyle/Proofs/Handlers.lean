import JsxStyle.Proofs.Moves
import JsxStyle.Style.Import
import JsxStyle.Style.Restyle

/-!
# Handlers make moves

Each handler looks at a sound store and answers with one that moves lead to.
What a handler puts in is always fresh, so it cannot have the place it goes to
below it: the nodes that were there before are fenced off, since none of them
has a parent among the new ones.

* `moves_restyleAttribute`, `moves_restyleReference`: the two handlers, whatever
  node they are called on;
* `moves_stripImport`: taking the style builder out of an import statement.
-/

namespace JsxStyle

/-- A generator that answers with calls left to run time or with trees of snippets,
where it does not fail. -/
def Generator.Plain (g : Generator) : Prop :=
  ∀ classes ast, g classes = .ok ast →
    (∃ callee, Generator.runtimeCall callee classes = .ok ast) ∨
      ∃ code, Read.snippet code = .ok ast

/-- The answers of such a generator can be grafted and put anywhere. -/
theorem Generator.Plain.graftable {g : Generator} (hg : g.Plain) {classes : Text} {ast : Ast}
    (h : g classes = .ok ast) :
    ast.WellShaped ∧ (ast.Every fun b => b.span = none) ∧ ast.kind.form.Loose := by
  rcases hg classes ast h with ⟨callee, hcall⟩ | ⟨code, hcode⟩
  · obtain rfl := Except.ok.inj hcall
    have hleaf {P : Ast → Prop} {k : Kind Ast} (hk : k.children = []) (hP : P (Ast.made k)) :
        (Ast.made k).Every P :=
      Ast.every_node.mpr ⟨hP, by simp [hk]⟩
    refine ⟨Ast.every_node.mpr ⟨?_, ?_⟩, Ast.every_node.mpr ⟨rfl, ?_⟩, trivial⟩
    · simp [Kind.children, Ast.kind, Ast.made, Kind.form, Form.Admits]
    · intro c hc
      simp only [Kind.children, List.mem_cons, List.not_mem_nil, or_false] at hc
      rcases hc with rfl | rfl
      · exact hleaf rfl (by simp [Ast.kind, Ast.made, Kind.children])
      · exact hleaf rfl (by simp [Ast.kind, Ast.made, Kind.children])
    · intro c hc
      simp only [Kind.children, List.mem_cons, List.not_mem_nil, or_false] at hc
      rcases hc with rfl | rfl
      · exact hleaf rfl rfl
      · exact hleaf rfl rfl
  · exact Read.wellShaped_snippet hcode

/-- What a container admits may stand as an expression. -/
theorem Form.Admits.loose {inner : Form} (h : Form.Admits .container inner) : inner.Loose := by
  cases inner <;> simp_all [Form.Admits, Form.Loose]

namespace Tree

/-- No node before `k` has a parent from `k` on. -/
def Fenced (t : Tree) (k : Nat) : Prop :=
  ∀ n p, n < k → t.parent n = some p → p < k

/-- Below a fenced node there are only fenced nodes. -/
theorem Fenced.within_lt {t : Tree} {k : Nat} (h : t.Fenced k) {n m : NodeId} (hn : n < k)
    (hnm : t.Within n m) : m < k := by
  induction hnm with
  | refl => exact hn
  | tail _ hup ih => exact h _ _ ih hup

/-- A linked store is fenced at its size. -/
theorem Linked.fenced {t : Tree} (ht : t.Linked) : t.Fenced t.size :=
  fun _ _ _ hp => ht.parent_lt_size hp

/-- A fence stands as long as the nodes behind it get no other parents. -/
theorem Fenced.of_parent {t t' : Tree} {k : Nat} (h : t.Fenced k)
    (hsame : ∀ n < k, ∀ p, t'.parent n = some p → t.parent n = some p) : t'.Fenced k :=
  fun n p hn hp => h n p hn (hsame n hn p hp)

/-- A detached node behind the fence is free for every place before it. -/
theorem Fenced.free {t : Tree} {k : Nat} (h : t.Fenced k) (hk : 0 < k) {new above : NodeId}
    (hnew : k ≤ new) (hlt : new < t.size) (hparent : t.parent new = none) (habove : above < k) :
    t.Free new above where
  lt_size := hlt
  parent := hparent
  ne_root := Nat.ne_of_gt (Nat.lt_of_lt_of_le hk hnew)
  not_within hw := absurd (h.within_lt habove hw) (Nat.not_lt.mpr hnew)

/-- An update that changes nothing. -/
theorem update_eq_self {t : Tree} {id : NodeId} {f : Node → Node} (h : f (t.node id) = t.node id) :
    t.update id f = t := by
  unfold update
  have hnodes : t.nodes.modify id f = t.nodes := by
    refine Array.ext (by simp) fun i hi hi' => ?_
    rw [Array.getElem_modify]
    split
    case isTrue heq =>
      subst heq
      have hnode : t.node id = t.nodes[id] := by
        unfold node
        rw [Array.getD_eq_getD_getElem?, Array.getElem?_eq_getElem hi']
        rfl
      rw [← hnode, h]
    case isFalse => rfl
  rw [hnodes]

/-- Replacing a detached node does nothing. -/
theorem replace_of_free {t : Tree} {old new : NodeId} (h : t.parent old = none) :
    t.replace old new = t := by
  unfold replace replaceWith
  simp only [h]
  refine update_eq_self ?_
  have hparent : (t.node old).parent = none := h
  rw [← hparent]

/-- What a kind that holds a node says about the node's parent. -/
theorem Linked.parent_of_kind {t : Tree} (ht : t.Linked) {n c : NodeId} {k : Kind NodeId}
    (h : t.kind n = k) (hc : c ∈ k.children) : t.parent c = some n := by
  rw [← ht.mem_children, children, h]
  exact hc

/-- The attributes of a tag hang below it. -/
theorem parent_of_mem_attributes {t : Tree} (ht : t.Linked) {tag attr : NodeId}
    (hattr : attr ∈ t.attributes tag) : t.parent attr = some tag := by
  rw [← ht.mem_children]
  unfold attributes at hattr
  unfold children
  cases hkind : t.kind tag with
  | opening name attributes selfClosing => simpa [hkind, Kind.children] using hattr
  | _ => simp [hkind] at hattr

/-- A node with an attribute name is an attribute of that name. -/
theorem attributeName_eq_some {t : Tree} {id : NodeId} {name : Text}
    (h : t.attributeName id = some name) : ∃ value, t.kind id = .attr name value := by
  unfold attributeName at h
  cases hkind : t.kind id with
  | attr name' value =>
    rw [hkind] at h
    exact ⟨value, congrArg (Kind.attr · value) (Option.some.inj h)⟩
  | _ => simp [hkind] at h

/-- A node with an attribute value is an attribute with that value. -/
theorem attributeValue_eq_some {t : Tree} {id value : NodeId}
    (h : t.attributeValue id = some value) : ∃ name, t.kind id = .attr name (some value) := by
  unfold attributeValue at h
  cases hkind : t.kind id with
  | attr name value' =>
    rw [hkind] at h
    exact ⟨name, congrArg (Kind.attr name) h⟩
  | _ => simp [hkind] at h

/-- The expression of a style attribute stands in its container, and that in the attribute. -/
theorem styleExpression_eq_some {t : Tree} {style expression : NodeId}
    (h : t.styleExpression style = some expression) :
    ∃ name container, t.kind style = .attr name (some container) ∧
      t.kind container = .container (some expression) := by
  unfold styleExpression at h
  cases hvalue : t.attributeValue style with
  | none => simp [hvalue] at h
  | some container =>
    obtain ⟨name, hname⟩ := attributeValue_eq_some hvalue
    cases hkind : t.kind container with
    | container inner =>
      rw [hvalue, Option.map_eq_map, Option.map_some, hkind] at h
      exact ⟨name, container, hname, hkind.trans (congrArg Kind.container h)⟩
    | _ => simp [hvalue, hkind] at h

/-- An attribute stands directly in the opening tag around it. -/
theorem Sound.parent_of_enclosing {t : Tree} (ht : t.Sound) {attr opening : NodeId}
    (hform : t.form attr = .attr) (h : t.enclosing attr .opening = some opening) :
    t.parent attr = some opening ∧ t.form opening = .opening := by
  cases hp : t.parent attr with
  | none =>
    rw [ht.linked.enclosing_eq_none hp] at h
    exact absurd h (by simp)
  | some p =>
    have hadm := ht.shaped (ht.linked.mem_children.mpr hp)
    rw [hform] at hadm
    have hopen : t.form p = .opening := hadm
    rw [ht.linked.enclosing_eq hp, if_pos hopen] at h
    obtain rfl := Option.some.inj h
    exact ⟨rfl, hopen⟩

/-- What encloses a node in a given form has that form and is in the store. -/
theorem Linked.form_of_enclosing {t : Tree} (ht : t.Linked) {n opening : NodeId} {f : Form}
    (h : t.enclosing n f = some opening) : t.form opening = f ∧ opening < t.size := by
  unfold enclosing findAncestor at h
  have hform := List.find?_some h
  have hbelow := ht.mem_ancestors_iff.mp (List.mem_of_find?_eq_some h)
  obtain ⟨c, -, hc⟩ := Relation.TransGen.tail'_iff.mp hbelow
  exact ⟨of_decide_eq_true hform, ht.parent_lt_size hc⟩

/-- Adding a node above others behind a fence leaves the fence standing. -/
theorem Fenced.alloc {t : Tree} {k : Nat} (h : t.Fenced k) {kind : Kind NodeId}
    (hbehind : ∀ c ∈ kind.children, k ≤ c) (s : Option Span) :
    (Tree.alloc kind s t).2.Fenced k := by
  refine h.of_parent fun n hn p hp => ?_
  rw [parent_alloc, if_neg] at hp
  · exact hp
  · exact fun hmem => absurd hn (Nat.not_lt.mpr (hbehind n hmem.1))

/-- The node that is allocated has the form of its kind. -/
theorem form_alloc_self (kind : Kind NodeId) (s : Option Span) (t : Tree) :
    (alloc kind s t).2.form t.size = kind.form := by
  rw [form, kind_alloc, if_pos rfl]

/-- `t'` is `t` with nodes added behind it, of which `new` is detached. -/
structure Adds (t t' : Tree) (new : NodeId) : Prop where
  moves : Moves t t'
  old : ∀ n < t.size, t'.node n = t.node n
  behind : t.size ≤ new
  lt_size : new < t'.size
  parent : t'.parent new = none
  dirty : t'.dirty new = true

namespace Adds

variable {t t' : Tree} {new : NodeId}

theorem kind_eq (h : Adds t t' new) {n : NodeId} (hn : n < t.size) : t'.kind n = t.kind n :=
  congrArg Node.kind (h.old n hn)

theorem form_eq (h : Adds t t' new) {n : NodeId} (hn : n < t.size) : t'.form n = t.form n :=
  congrArg Kind.form (h.kind_eq hn)

theorem parent_eq (h : Adds t t' new) {n : NodeId} (hn : n < t.size) : t'.parent n = t.parent n :=
  congrArg Node.parent (h.old n hn)

/-- The nodes there were stay fenced when one is added. -/
theorem fenced (h : Adds t t' new) (ht : t.Linked) : t'.Fenced t.size :=
  ht.fenced.of_parent fun _ hn _ hp => (h.parent_eq hn).symm.trans hp

/-- An added node is free to go below any node there was. -/
theorem free (h : Adds t t' new) (ht : t.Linked) {above : NodeId} (habove : above < t.size) :
    t'.Free new above :=
  (h.fenced ht).free ht.nonempty h.behind h.lt_size h.parent habove

/-- Allocating a node without children adds it. -/
theorem leaf (t : Tree) {kind : Kind NodeId} (hkind : kind.children = []) :
    Adds t (alloc kind none t).2 t.size where
  moves := .single (.alloc (by simp [hkind]) (by simp [hkind]) (by simp [hkind]))
  old n hn := by rw [node_alloc, if_neg (Nat.ne_of_lt hn), if_neg (by simp [hkind])]
  behind := Nat.le_refl _
  lt_size := by rw [size_alloc]; exact Nat.lt_succ_self _
  parent := by rw [parent_alloc, if_neg (by simp [hkind]), parent_of_size_le (Nat.le_refl _)]
  dirty := by rw [dirty_alloc, if_pos rfl]; rfl

/-- One more node, above the one added before. -/
theorem above (h : Adds t t' new) (ht : t.Linked) {kind : Kind NodeId}
    (hkind : kind.children = [new])
    (hadm : kind.form.Admits (t'.form new)) : Adds t (alloc kind none t').2 t'.size where
  moves := by
    refine h.moves.tail (.alloc ?_ (by simp [hkind]) ?_)
    · intro c hc
      obtain rfl : c = new := by simpa [hkind] using hc
      exact ⟨h.parent, h.lt_size, (h.free ht ht.nonempty).ne_root⟩
    · intro c hc
      obtain rfl : c = new := by simpa [hkind] using hc
      exact hadm
  old n hn := by
    have hlt : n < new := Nat.lt_of_lt_of_le hn h.behind
    rw [node_alloc, if_neg (Nat.ne_of_lt (Nat.lt_trans hlt h.lt_size)), if_neg, h.old n hn]
    rw [hkind, List.mem_singleton]
    exact fun hmem => Nat.ne_of_lt hlt hmem.1
  behind := Nat.le_trans h.behind (Nat.le_of_lt h.lt_size)
  lt_size := by rw [size_alloc]; exact Nat.lt_succ_self _
  parent := by
    rw [parent_alloc, if_neg, parent_of_size_le (Nat.le_refl _)]
    exact fun hmem => Nat.lt_irrefl _ hmem.2
  dirty := by rw [dirty_alloc, if_pos rfl]; rfl

end Adds

/-- A style attribute is added around a style. -/
theorem Adds.styleAttribute {t u : Tree} {styles : NodeId} (h : Adds t u styles) (ht : t.Linked)
    (hloose : (u.form styles).Loose) :
    let v := (u.alloc (.container (some styles)) none).2
    let w := (v.alloc (.attr Vocabulary.style (some u.size)) none).2
    Adds t w v.size ∧ w.kind v.size = .attr Vocabulary.style (some u.size) ∧
      w.kind u.size = .container (some styles) ∧
      ∀ n < u.size, w.kind n = u.kind n ∧ w.span n = u.span n := by
  intro v w
  have hcontainer : Adds t v u.size := h.above ht rfl (hloose.admits _)
  have hform : v.form u.size = .container := form_alloc_self ..
  have hstyle : Adds t w v.size := by
    refine hcontainer.above ht rfl ?_
    rw [hform]
    exact trivial
  have hne {n : NodeId} (hn : n ≤ u.size) : n ≠ v.size := by
    have hsize : v.size = u.size + 1 := size_alloc ..
    rw [hsize]
    exact Nat.ne_of_lt (Nat.lt_succ_of_le hn)
  refine ⟨hstyle, ?_, ?_, fun n hn => ⟨?_, ?_⟩⟩
  · rw [kind_alloc, if_pos rfl]
  · rw [kind_alloc, if_neg (hne (Nat.le_refl _)), kind_alloc, if_pos rfl]
  · rw [kind_alloc, if_neg (hne (Nat.le_of_lt hn)), kind_alloc, if_neg (Nat.ne_of_lt hn)]
  · rw [span_alloc, if_neg (hne (Nat.le_of_lt hn)), span_alloc, if_neg (Nat.ne_of_lt hn)]

/-- A generator's answer is added as a tree that may stand anywhere. -/
theorem adds_generated {t : Tree} (ht : t.Linked) {g : Generator} (hg : g.Plain) {classes : Text}
    {ast : Ast} (h : g classes = .ok ast) :
    Adds t ((graft ast).run t).2 ((graft ast).run t).1 ∧
      (((graft ast).run t).2.form ((graft ast).run t).1).Loose := by
  obtain ⟨hshape, hplace, hloose⟩ := hg.graftable h
  have hspec := graft_spec ast t ht
  obtain ⟨hbehind, hlt⟩ := hspec.fresh _ (List.mem_singleton_self _)
  have hdepicts := List.forall₂_cons.mp hspec.depicts
  refine ⟨⟨.single (.graft ast hshape hplace), hspec.old, hbehind, hlt,
    hspec.free _ (List.mem_singleton_self _), ?_⟩, ?_⟩
  · obtain ⟨a, ha, b, hb, -, hdirty⟩ := hspec.added _ hbehind hlt
    obtain rfl : a = ast := by simpa using ha
    rw [hdirty, hplace b hb]
    rfl
  · rw [hdepicts.1.form_eq]
    exact hloose

theorem dirty_place (t : Tree) (id : NodeId) (s : Option Span) (n : NodeId) :
    (t.update id ({ · with span := s })).dirty n = t.dirty n := by
  simp only [dirty, node_update]
  split <;> rfl

/-- Replacing takes no mark away. -/
theorem dirty_replace {t : Tree} {old new n : NodeId} (ht : t.Linked) (hnew : new < t.size)
    (h : t.dirty n = true) : (t.replace old new).dirty n = true := by
  cases hp : t.parent old with
  | none => rwa [replace_of_free hp]
  | some above =>
    rw [(editAt_replace ht hp hnew).dirty, h]
    rfl

/-- A node that is marked already goes where another one stood, and the mark that
this ends with changes nothing. -/
theorem replaceAt_eq {t : Tree} (ht : t.Linked) {old new : NodeId} (hlt : new < t.size)
    (hdirty : t.dirty new = true) :
    t.replaceAt old new = (t.update new ({ · with span := t.span old })).replace old new := by
  have hmark : (t.update new ({ · with span := t.span old })).dirty new = true :=
    (dirty_place ..).trans hdirty
  have hstill : (((t.update new ({ · with span := t.span old })).replace old new).node new).dirty =
      true := dirty_replace (ht.place ..) (by rwa [size_update]) hmark
  refine update_eq_self ?_
  rw [← hstill]

/-- What a fresh node in the place of another changes, but for its place in the source. -/
theorem editAt_replaceAt {t : Tree} (ht : t.Linked) {old new above : NodeId}
    (hold : t.parent old = some above) (hlt : new < t.size) (hdirty : t.dirty new = true) :
    EditAt (t.update new ({ · with span := t.span old })) (t.replaceAt old new) above
      ((t.kind above).replaceChild old new)
      fun n => if n = new then some above else if n = old then none else t.parent n := by
  have hparent := parent_place t new (t.span old)
  have hedit := editAt_replace (ht.place new (t.span old)) ((hparent old).trans hold)
    (by rwa [size_update])
  rw [replaceAt_eq ht hlt hdirty]
  simp only [kind_place, hparent] at hedit
  exact hedit

/-- A fresh node goes where another one stood and takes over its place in the source. -/
theorem moves_replaceAt {t : Tree} (ht : t.Sound) {old new : NodeId} (hlt : new < t.size)
    (hdirty : t.dirty new = true)
    (hfree : ∀ above, t.parent old = some above →
      t.Free new above ∧ (t.form above).Admits (t.form new)) :
    Moves t (t.replaceAt old new) := by
  have hplaced : Move t (t.update new ({ · with span := t.span old })) := .place _ hdirty
  have hparent := parent_place t new (t.span old)
  have hkind := kind_place t new (t.span old)
  rw [replaceAt_eq ht.linked hlt hdirty]
  cases hp : t.parent old with
  | none =>
    rw [replace_of_free ((hparent old).trans hp)]
    exact .single hplaced
  | some above =>
    obtain ⟨hnew, hadm⟩ := hfree above hp
    have hwithin : ¬ (t.update new ({ · with span := t.span old })).Within above new := fun hw =>
      hnew.not_within (Relation.ReflTransGen.mono (fun m _ hm => (hparent m).symm.trans hm) _ _ hw)
    refine .tail (.single hplaced) (.replace ((hparent old).trans hp) ⟨?_, ?_, hnew.ne_root,
      hwithin⟩ ?_)
    · rwa [size_update]
    · rw [hparent, hnew.parent]
    · rwa [form, hkind, form, hkind]

/-- An extension leaves the store alone, or puts another string into the annotation. -/
theorem extend_cases {t t' : Tree} (ht : t.Sound) {a : Annotator} {attributes : List NodeId}
    {classes : Text} (h : a.extend attributes classes t = some t') :
    t' = t ∨ ∃ existing value text quote, existing ∈ attributes ∧
      t.kind existing = .attr a.label (some value) ∧ t.kind value = .str text quote ∧
      t.parent value = some existing ∧
      t' =
        (t.alloc (.str (Annotator.extended text classes) quote) none).2.replace value t.size := by
  unfold Annotator.extend at h
  obtain ⟨existing, hexisting, h⟩ := Option.bind_eq_some_iff.mp h
  obtain ⟨value, hvalue, h⟩ := Option.bind_eq_some_iff.mp h
  obtain ⟨name, hkind⟩ := attributeValue_eq_some hvalue
  have hname : t.attributeName existing = some a.label := by
    simpa using List.find?_some hexisting
  obtain rfl : name = a.label := by simpa [attributeName, hkind] using hname
  cases hstr : t.kind value with
  | str text quote =>
    rw [hstr] at h
    exact Or.inr ⟨existing, value, text, quote, List.mem_of_find?_eq_some hexisting, hkind, hstr,
      ht.linked.parent_of_kind hkind (by simp [Kind.children]), (Option.some.inj h).symm⟩
  | _ =>
    rw [hstr] at h
    exact Or.inl (Option.some.inj h).symm

/-- The annotation of an element gets another string. -/
theorem moves_extend {t t' : Tree} (ht : t.Sound) {a : Annotator} {attributes : List NodeId}
    {classes : Text} (h : a.extend attributes classes t = some t') : Moves t t' := by
  obtain rfl | ⟨existing, value, text, quote, -, -, -, hparent, rfl⟩ := extend_cases ht h
  · exact .refl
  · have hadds : Adds t (t.alloc (.str (Annotator.extended text classes) quote) none).2 t.size :=
      .leaf t rfl
    refine hadds.moves.tail (.replace ?_
      (hadds.free ht.linked (ht.linked.parent_lt_size hparent)) ?_)
    · rw [hadds.parent_eq (lt_size_of_parent hparent), hparent]
    · rw [form_alloc_self]
      exact trivial

/-- A fresh annotation is an attribute added to the store. -/
theorem adds_fresh {t : Tree} (ht : t.Linked) (a : Annotator) (classes : Text) :
    Adds t (a.fresh classes t).2 (a.fresh classes t).1 ∧
      (a.fresh classes t).2.form (a.fresh classes t).1 = .attr := by
  have hvalue : Adds t (t.alloc (.str classes '"') none).2 t.size := .leaf t rfl
  refine ⟨hvalue.above ht rfl ?_, form_alloc_self ..⟩
  rw [form_alloc_self]
  exact trivial

/-- An annotation is extended or put in with a move. -/
theorem moves_annotate {t : Tree} (ht : t.Sound) (a : Annotator)
    {insert : NodeId → Tree → Option Tree} {opening : NodeId} (hlt : opening < t.size)
    (hinsert : ∀ {u u' : Tree} {new : NodeId}, (∀ n < t.size, u.node n = t.node n) →
      u.Sound → u.Free new opening → u.form new = .attr → insert new u = some u' → Move u u')
    (target : NodeId) (attributes : List NodeId) (classes : Text) :
    Moves t (a.annotate insert target attributes classes t).tree := by
  unfold Annotator.annotate
  by_cases henabled : a.enabled = true
  · rw [if_pos henabled]
    cases hextended : a.extend attributes classes.collapse t with
    | some t' => exact moves_extend ht hextended
    | none =>
      obtain ⟨hadds, hform⟩ := adds_fresh ht.linked a classes.collapse
      dsimp only
      cases hinserted : insert (a.fresh classes.collapse t).1 (a.fresh classes.collapse t).2 with
      | some t' =>
        exact hadds.moves.tail
          (hinsert hadds.old (hadds.moves.sound ht) (hadds.free ht.linked hlt) hform hinserted)
      | none => exact hadds.moves
  · rw [if_neg henabled]
    exact .refl

/-- Annotating an opening tag at its end or in its present annotation is made of moves. -/
theorem moves_attachTo {t : Tree} (ht : t.Sound) (a : Annotator) {opening : NodeId}
    (hform : t.form opening = .opening) (attributes : List NodeId) (classes : Text) :
    Moves t (a.attachTo opening attributes classes t).tree := by
  have hlt : opening < t.size := lt_size_of_form (by rw [hform]; decide)
  refine moves_annotate ht a hlt ?_ ..
  intro u u' new hold _ hfree hnew happend
  have hholder : u.form opening = .opening := by
    rw [form, kind, hold opening hlt]
    exact hform
  refine .append happend (lt_size_of_form (by rw [hholder]; decide)) hfree ?_
  rw [hholder, hnew]
  rfl

/-- Annotating an opening tag behind its style attribute is made of moves. -/
theorem moves_attachAfter {t : Tree} (ht : t.Sound) (a : Annotator) {style opening : NodeId}
    (hparent : t.parent style = some opening) (hform : t.form opening = .opening)
    (attributes : List NodeId) (classes : Text) :
    Moves t (a.attachAfter style attributes classes t).tree := by
  have hlt : opening < t.size := ht.linked.parent_lt_size hparent
  refine moves_annotate ht a hlt ?_ ..
  intro u u' new hold _ hfree hnew hinsert
  have hholder : u.form opening = .opening := by
    rw [form, kind, hold opening hlt]
    exact hform
  have habove : u.parent style = some opening := by
    rw [parent, hold style (lt_size_of_parent hparent)]
    exact hparent
  refine .insertAfter hinsert habove hfree ?_
  rw [hholder, hnew]
  rfl

/-- All children of a tag, a program or a fragment stand in a list. -/
theorem items_eq_children {t : Tree} {n : NodeId}
    (h : t.form n = .opening ∨ t.form n = .program ∨ t.form n = .fragment) :
    (t.kind n).items? = some (t.children n) := by
  unfold form at h
  unfold children
  cases hk : t.kind n <;> simp_all [Kind.form, Kind.items?, Kind.children]

/-- A style expression stands in the braces of its attribute. -/
theorem Sound.style_parts {t : Tree} (ht : t.Sound) {style expression : NodeId}
    (h : t.styleExpression style = some expression) :
    ∃ name container, t.kind style = .attr name (some container) ∧
      t.kind container = .container (some expression) ∧ t.parent expression = some container ∧
      (t.form expression).Loose := by
  obtain ⟨name, container, hstyle, hkind⟩ := styleExpression_eq_some h
  have hparent : t.parent expression = some container :=
    ht.linked.parent_of_kind hkind (by simp [Kind.children])
  have hadm := ht.shaped (ht.linked.mem_children.mpr hparent)
  rw [form, hkind] at hadm
  exact ⟨name, container, hstyle, hkind, hparent, hadm.loose⟩

/-- Styles go into the array that is there, or into a new one behind the expression. -/
theorem moves_mergeStyles {t : Tree} {expression styles container : NodeId}
    (hparent : t.parent expression = some container) (hloose : (t.form expression).Loose)
    (hstyles : (t.form styles).Loose) (hfree : ∀ above, above = expression ∨ above = container →
      t.Free styles above) : Moves t (Stylist.mergeStyles expression styles t) := by
  unfold Stylist.mergeStyles
  split
  · cases happend : t.append expression styles with
    | none => exact .refl
    | some t' =>
      exact .single (.append happend (lt_size_of_parent hparent) (hfree _ (Or.inl rfl))
        (hstyles.admits _))
  · exact .single (.wrap hparent (hfree _ (Or.inr rfl)) hloose hstyles)

end Tree

namespace Stylist

open JsxStyle.Tree

variable {t : Tree} {s : Stylist}

/-- An attribute goes out of its tag when a style has been added, and the style
comes in behind the style expression. -/
theorem moves_remove_mergeStyles {u : Tree} (ht : t.Sound)
    {attr opening styles expression container : NodeId}
    (hattr : t.form attr = .attr) (hparent : t.parent attr = some opening)
    (hopening : t.form opening = .opening) (hcontainer : t.parent expression = some container)
    (hloose : (t.form expression).Loose) (hadds : Adds t u styles)
    (hstyles : (u.form styles).Loose) :
    Moves t (u.remove attr) ∧ (u.remove attr).parent expression = some container ∧
      Moves (u.remove attr) (mergeStyles expression styles (u.remove attr)) := by
  have hgrown := hadds.moves.sound ht
  have hexplt : expression < t.size := lt_size_of_parent hcontainer
  have hcontlt : container < t.size := ht.linked.parent_lt_size hcontainer
  have hattrlt : attr < t.size := lt_size_of_parent hparent
  have hoplt : opening < t.size := ht.linked.parent_lt_size hparent
  have hparentu : u.parent attr = some opening := by rw [hadds.parent_eq hattrlt, hparent]
  have hopenu : u.form opening = .opening := by rw [hadds.form_eq hoplt, hopening]
  have hremove : Move u (u.remove attr) := .remove hparentu (items_eq_children (Or.inl hopenu))
  have hedit := editAt_remove hgrown.linked hparentu
  have hmoves : Moves t (u.remove attr) := hadds.moves.tail hremove
  generalize u.remove attr = v at *
  have hfence : v.Fenced t.size := by
    refine (hadds.fenced ht.linked).of_parent fun n _ p hp => ?_
    rw [hedit.parent] at hp
    split at hp
    · exact absurd hp (by simp)
    · exact hp
  have hfree (above : NodeId) (habove : above < t.size) : v.Free styles above := by
    refine hfence.free ht.linked.nonempty hadds.behind (hedit.size ▸ hadds.lt_size) ?_ habove
    rw [hedit.parent, hadds.parent]
    split <;> rfl
  have hne : expression ≠ attr := by
    intro heq
    subst heq
    rw [hattr] at hloose
    exact hloose
  have hcontv : v.parent expression = some container := by
    rw [hedit.parent, if_neg hne, hadds.parent_eq hexplt, hcontainer]
  refine ⟨hmoves, hcontv, moves_mergeStyles hcontv ?_ ?_ ?_⟩
  · rwa [hmoves.form_eq ht hexplt]
  · rwa [Moves.form_eq (.single hremove) hgrown hadds.lt_size]
  · rintro above (rfl | rfl)
    · exact hfree _ hexplt
    · exact hfree _ hcontlt

/-- Merging a style into the attribute that holds one is made of moves. -/
theorem moves_merge (ht : t.Sound) (hs : s.generate.Plain) {attr opening : NodeId}
    (hattr : t.form attr = .attr) (hparent : t.parent attr = some opening)
    (hopening : t.form opening = .opening) (style : NodeId) (classes : Text) :
    Moves t (s.merge attr style opening classes t).tree := by
  unfold merge
  cases hexpression : t.styleExpression style with
  | none => exact .refl
  | some expression =>
    dsimp only
    cases hast : s.generate classes with
    | error e => exact .refl
    | ok ast =>
      dsimp only
      obtain ⟨-, container, -, -, hcontainer, hloose⟩ := ht.style_parts hexpression
      obtain ⟨hadds, hstyles⟩ := adds_generated ht.linked hs hast
      generalize (graft ast).run t = run at *
      obtain ⟨styles, u⟩ := run
      dsimp only at *
      obtain ⟨hremoved, -, hmerged⟩ := moves_remove_mergeStyles ht hattr hparent hopening hcontainer
        hloose hadds hstyles
      have hall : Moves t (mergeStyles expression styles (u.remove attr)) := hremoved.trans hmerged
      refine hall.trans (moves_attachTo (hall.sound ht) _ ?_ ..)
      rw [hall.form_eq ht (ht.linked.parent_lt_size hparent), hopening]

/-- The attribute in the place of a shorthand attribute, from the tag on. -/
theorem moves_styleAttribute {w : Tree} (ht : t.Sound) {attr style opening : NodeId}
    (hparent : t.parent attr = some opening) (hopening : t.form opening = .opening)
    (hadds : Adds t w style) (hform : w.form style = .attr) :
    Moves w (w.replaceAt attr style) ∧ (w.replaceAt attr style).parent style = some opening := by
  have hattrlt : attr < t.size := lt_size_of_parent hparent
  have hoplt : opening < t.size := ht.linked.parent_lt_size hparent
  have hparentw : w.parent attr = some opening := by rw [hadds.parent_eq hattrlt, hparent]
  have hsound := hadds.moves.sound ht
  constructor
  · refine moves_replaceAt hsound hadds.lt_size hadds.dirty fun above habove => ?_
    obtain rfl := Option.some.inj (hparentw.symm.trans habove)
    refine ⟨hadds.free ht.linked hoplt, ?_⟩
    rw [hadds.form_eq hoplt, hopening, hform]
    rfl
  · have hedit := editAt_replaceAt hsound.linked hparentw hadds.lt_size hadds.dirty
    exact (hedit.parent style).trans (if_pos rfl)

/-- Turning a class attribute into a style attribute is made of moves. -/
theorem moves_convert (ht : t.Sound) (hs : s.generate.Plain) {attr opening : NodeId}
    (hparent : t.parent attr = some opening) (hopening : t.form opening = .opening)
    (attributes : List NodeId) (classes : Text) :
    Moves t (s.convert attr attributes classes t).tree := by
  unfold convert
  cases hast : s.generate classes with
  | error e => exact .refl
  | ok ast =>
    dsimp only
    obtain ⟨hstyles, hloose⟩ := adds_generated ht.linked hs hast
    generalize (graft ast).run t = run at *
    obtain ⟨styles, u⟩ := run
    dsimp only at *
    obtain ⟨hadds, hkind, -, -⟩ := hstyles.styleAttribute ht.linked hloose
    rw [alloc_fst, alloc_fst]
    generalize (Tree.alloc (.attr Vocabulary.style (some u.size)) none
      (u.alloc (.container (some styles)) none).2).2 = w at *
    generalize (u.alloc (.container (some styles)) none).2.size = style at *
    obtain ⟨hreplaced, hnew⟩ :=
      moves_styleAttribute ht hparent hopening hadds (congrArg Kind.form hkind)
    have hall : Moves t (w.replaceAt attr style) := hadds.moves.trans hreplaced
    refine hall.trans (moves_attachAfter (hall.sound ht) _ hnew ?_ ..)
    rw [hall.form_eq ht (ht.linked.parent_lt_size hparent), hopening]

/-- Whatever attribute it is called on, restyling makes moves. -/
theorem moves_restyleAttribute (ht : t.Sound) (hs : s.generate.Plain) (attr : NodeId) :
    Moves t (s.restyleAttribute attr t).tree := by
  unfold restyleAttribute
  split
  case isTrue hname =>
    obtain ⟨value, hkind⟩ := attributeName_eq_some hname
    have hattr : t.form attr = .attr := congrArg Kind.form hkind
    cases t.shorthandClasses attr with
    | error e => exact .refl
    | ok classes =>
      dsimp only
      cases henclosing : t.enclosing attr .opening with
      | none => exact .refl
      | some opening =>
        obtain ⟨hparent, hopening⟩ := ht.parent_of_enclosing hattr henclosing
        dsimp only
        cases t.attributeNamed (t.attributes opening) Vocabulary.style with
        | some style => exact moves_merge ht hs hattr hparent hopening ..
        | none => exact moves_convert ht hs hparent hopening ..
  case isFalse => exact .refl

/-- Annotating the element around a reference is made of moves. -/
theorem moves_annotateAround (ht : t.Sound) (reference : NodeId) (classes : Text) :
    Moves t (s.annotateAround reference classes t).tree := by
  unfold annotateAround
  cases henclosing : t.enclosing reference .opening with
  | none => exact .refl
  | some opening => exact moves_attachTo ht _ (ht.linked.form_of_enclosing henclosing).1 ..

/-- Putting the generated style in the place of its template is made of moves. -/
theorem moves_replaceTemplate (ht : t.Sound) (hs : s.generate.Plain) {template : NodeId}
    (htemplate : template < t.size) (classes : Text) :
    Moves t (s.replaceTemplate template classes t).tree := by
  unfold replaceTemplate
  cases hast : s.generate classes with
  | error e => exact .refl
  | ok ast =>
    dsimp only
    obtain ⟨hadds, hloose⟩ := adds_generated ht.linked hs hast
    generalize (graft ast).run t = run at *
    obtain ⟨styles, u⟩ := run
    dsimp only at *
    refine hadds.moves.trans (moves_replaceAt (hadds.moves.sound ht) hadds.lt_size hadds.dirty
      fun above habove => ⟨?_, hloose.admits _⟩)
    rw [hadds.parent_eq htemplate] at habove
    exact hadds.free ht.linked (ht.linked.parent_lt_size habove)

/-- Whatever node it is called on, restyling a reference makes moves. -/
theorem moves_restyleReference (ht : t.Sound) (hs : s.generate.Plain) (scope : Scope)
    (reference : NodeId) : Moves t (s.restyleReference scope reference t).tree := by
  unfold restyleReference
  split
  case isTrue =>
    cases henclosing : t.enclosing reference .template with
    | none => exact .refl
    | some template =>
      dsimp only
      split
      case isTrue =>
        cases t.staticClasses template scope.builder with
        | none => exact .refl
        | some classes =>
          dsimp only
          have hmoves : Moves t (s.annotateAround reference classes t).tree :=
            moves_annotateAround ht reference classes
          generalize s.annotateAround reference classes t = step at hmoves ⊢
          obtain ⟨u, failure⟩ := step
          cases failure with
          | some e => exact hmoves
          | none =>
            have hlt := (ht.linked.form_of_enclosing henclosing).2
            refine hmoves.trans (moves_replaceTemplate (hmoves.sound ht) hs ?_ classes)
            exact Nat.lt_of_lt_of_le hlt (hmoves.size_le ht)
      case isFalse => exact .refl
  case isFalse => exact .refl

end Stylist

namespace Tree

/-- An import statement stands in the program or in a fragment, which list all their children. -/
theorem Sound.above_importing {t : Tree} (ht : t.Sound) {id above : NodeId}
    (hform : t.form id = .importing) (hp : t.parent id = some above) :
    t.form above = .program ∨ t.form above = .fragment := by
  have hadm := ht.shaped (ht.linked.mem_children.mpr hp)
  rwa [hform] at hadm

/-- Another statement is put in the place of an import statement. -/
theorem moves_replaceImport {t : Tree} (ht : t.Sound) {id : NodeId} (hform : t.form id = .importing)
    (decl : ImportDecl) : Moves (t.alloc (.importing decl) none).2
      ((t.alloc (.importing decl) none).2.replaceAt id t.size) := by
  have hlt : id < t.size := lt_size_of_form (by rw [hform]; decide)
  have hadds : Adds t (t.alloc (.importing decl) none).2 t.size := .leaf t rfl
  refine moves_replaceAt (hadds.moves.sound ht) hadds.lt_size hadds.dirty fun above hp => ?_
  rw [hadds.parent_eq hlt] at hp
  have hablt := ht.linked.parent_lt_size hp
  refine ⟨hadds.free ht.linked hablt, ?_⟩
  rw [hadds.form_eq hablt, form_alloc_self]
  exact ht.above_importing hform hp

/-- Taking the style builder out of an import statement makes moves. -/
theorem moves_stripImport {t : Tree} (ht : t.Sound) (found : StyleImport) :
    Moves t (t.stripImport found) := by
  rcases t.stripImport_cases found with hkept | ⟨decl, hkind, hnew | hgone⟩
  · rw [hkept]
    exact .refl
  · rw [hnew]
    have hadds : Adds t (t.alloc (.importing (decl.without found.name)) none).2 t.size :=
      .leaf t rfl
    exact hadds.moves.trans (moves_replaceImport ht (congrArg Kind.form hkind) _)
  · rw [hgone]
    cases hp : t.parent found.node with
    | none =>
      rw [remove, hp]
      exact .refl
    | some above =>
      have habove := ht.above_importing (congrArg Kind.form hkind) hp
      exact .single (.remove hp (items_eq_children (Or.inr habove)))

end Tree

end JsxStyle
