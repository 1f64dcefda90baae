import JsxStyle.Proofs.InStep

/-!
# A module without the attributes of one name

What a store shows from its root down is a tree, and the attributes of one name
can be erased from all tags of that tree.  Of two stores that differ in
annotations this leaves one and the same tree.

* `Ast.without`: a tree without the attributes of a name, `Ast.every_without`
  what that means;
* `Depicts.unique`: a store shows one tree only;
* `SameWithout`: two stores show the same without the attributes of a name;
* `Alike.sameWithout`: alike stores do.
-/

namespace JsxStyle

namespace Ast

/-- The name of an attribute; other trees have none. -/
def attributeName (x : Ast) : Option Text :=
  match x.kind with
  | .attr name _ => some name
  | _ => none

/-- The tree without the attributes called `label` in its tags. -/
def without (label : Text) (x : Ast) : Ast :=
  x.fold fun s k => node s (k.keepAttributes fun c => c.attributeName ≠ some label)

theorem without_node (label : Text) (s : Option Span) (k : Kind Ast) :
    (node s k).without label =
      node s ((k.map (without label)).keepAttributes fun c => c.attributeName ≠ some label) :=
  fold_node ..

theorem attributeName_without (label : Text) (x : Ast) :
    (x.without label).attributeName = x.attributeName := by
  cases x with
  | node s k =>
    rw [without_node]
    cases k <;> rfl

/-- No tag lists an attribute of the name any more. -/
theorem every_without (label : Text) (x : Ast) : (x.without label).Every fun b =>
    ∀ name attributes selfClosing, b.kind = .opening name attributes selfClosing →
      ∀ c ∈ attributes, c.attributeName ≠ some label := by
  induction x using Ast.induction with
  | h s k ih =>
    rw [without_node]
    refine every_node.mpr ⟨fun name attributes selfClosing hkind c hc => ?_, fun c hc => ?_⟩
    · cases k with
      | opening name' attributes' selfClosing' =>
        obtain ⟨-, rfl, -⟩ := Kind.opening.inj hkind
        exact of_decide_eq_true (List.mem_filter.mp hc).2
      | _ => simp [kind, Kind.map, Kind.keepAttributes] at hkind
    · have hmem : c ∈ (k.map (without label)).children := by
        cases k <;> simp_all [Kind.map, Kind.keepAttributes, Kind.children]
      rw [Kind.children_map] at hmem
      obtain ⟨x, hx, rfl⟩ := List.mem_map.mp hmem
      exact ih x hx

end Ast

namespace Kind

/-- Of what is kept first, more may be left out then. -/
theorem keepAttributes_keepAttributes {α : Type} {q r : α → Bool} {k : Kind α}
    (h : k.form = .opening → ∀ c ∈ k.children, q c = true → r c = true) :
    (k.keepAttributes r).keepAttributes q = k.keepAttributes q := by
  cases k with
  | opening name attributes selfClosing =>
    simp only [keepAttributes, List.filter_filter]
    have hfilter : attributes.filter (fun c => q c && r c) = attributes.filter q := by
      refine List.filter_congr fun c hc => ?_
      cases hq : q c with
      | false => rfl
      | true => rw [h rfl c hc hq, Bool.and_self]
    rw [hfilter]
  | _ => rfl

end Kind

/-- Pairs with the same second parts have the same first parts, if the second part of one of them
goes with its first part only. -/
theorem map_fst_eq {α β : Type} {l l' : List (α × β)} {r : β → α → Prop}
    (h : l.map Prod.snd = l'.map Prod.snd) (hone : ∀ p ∈ l, ∀ y, r p.2 y → p.1 = y)
    (hall : ∀ p ∈ l', r p.2 p.1) : l.map Prod.fst = l'.map Prod.fst := by
  induction l generalizing l' with
  | nil =>
    rw [List.map_nil, eq_comm, List.map_eq_nil_iff] at h
    rw [h]
  | cons p rest ih =>
    obtain ⟨p', rest', rfl, hp, hrest⟩ := List.map_eq_cons_iff.mp h.symm
    have hfirst : p.1 = p'.1 :=
      hone p List.mem_cons_self p'.1 (hp ▸ hall p' List.mem_cons_self)
    rw [List.map_cons, List.map_cons, hfirst, ih hrest.symm
      (fun q hq => hone q (List.mem_cons_of_mem _ hq))
      fun q hq => hall q (List.mem_cons_of_mem _ hq)]

namespace Tree

/-- What the nodes of `t` from `id` down show, cut off below some depth.  Of what is cut off,
names of attributes are left. -/
def depict (t : Tree) : (depth : Nat) → NodeId → Ast
  | 0, id =>
    match t.attributeName id with
    | some name => .made (.attr name none)
    | none => .made (.fragment [])
  | depth + 1, id => .node (t.span id) ((t.kind id).map (t.depict depth))

theorem attributeName_depict (t : Tree) (d : Nat) (id : NodeId) :
    (t.depict d id).attributeName = t.attributeName id := by
  cases d with
  | zero =>
    rw [depict]
    cases t.attributeName id <;> rfl
  | succ d =>
    rw [depict, attributeName]
    cases hk : t.kind id <;> rfl

/-- At a depth that the store does not reach, nothing is cut off. -/
theorem Linked.depicts_depict {t : Tree} (ht : t.Linked) {d : Nat} {id : NodeId} (hlt : id < t.size)
    (hd : t.size ≤ d + (t.ancestors id).length) : t.Depicts id (t.depict d id) := by
  induction d generalizing id with
  | zero =>
    have hshort := ht.length_ancestorsWithin_lt t.size id
    rw [Nat.zero_add] at hd
    exact absurd hd (Nat.not_le.mpr hshort)
  | succ d ih =>
    have hbelow : ∀ c ∈ t.children id, t.Depicts c (t.depict d c) := by
      intro c hc
      refine ih (ht.lt_size_of_mem hc) ?_
      rw [ht.ancestors_eq_cons (ht.mem_children.mp hc), List.length_cons]
      omega
    have hnode : t.Depicts id (.node (t.span id)
        (((t.kind id).map fun c => (t.depict d c, c)).map Prod.fst)) := .node _ hlt
      (by rw [Kind.map_map]; exact (Kind.map_id _).symm) fun p hp => by
        rw [Kind.children_map] at hp
        obtain ⟨c, hc, rfl⟩ := List.mem_map.mp hp
        exact hbelow c hc
    rw [Kind.map_map] at hnode
    exact hnode

/-- A store shows one tree only. -/
theorem Depicts.unique {t : Tree} {id : NodeId} {x y : Ast} (hx : t.Depicts id x)
    (hy : t.Depicts id y) : x = y := by
  induction hx generalizing y with
  | node z _ hkind _ ih =>
    cases hy with
    | node z' _ hkind' hbelow' =>
      have hids := hkind.symm.trans hkind'
      have hshape : (z.map Prod.fst).map (fun _ => ()) = (z'.map Prod.fst).map fun _ => () := by
        have hunits := congrArg (Kind.map fun _ => ()) hids
        rw [Kind.map_map, Kind.map_map] at hunits
        rw [Kind.map_map, Kind.map_map]
        exact hunits
      have hchildren : (z.map Prod.fst).children = (z'.map Prod.fst).children := by
        have hlists := congrArg Kind.children hids
        rw [Kind.children_map, Kind.children_map] at hlists
        rw [Kind.children_map, Kind.children_map]
        exact map_fst_eq hlists (fun p hp y => ih p hp) hbelow'
      rw [Kind.eq_of_children hshape hchildren]

/-- Two stores show the same tree from the root down, when the attributes called `label` are
erased from all tags. -/
def SameWithout (label : Text) (t t' : Tree) : Prop :=
  ∃ x y : Ast, t.Depicts root x ∧ t'.Depicts root y ∧ x.without label = y.without label

/-- Whatever trees the stores show, they are the same then. -/
theorem SameWithout.without_eq {label : Text} {t t' : Tree} (h : SameWithout label t t')
    {x y : Ast} (hx : t.Depicts root x) (hy : t'.Depicts root y) :
    x.without label = y.without label := by
  obtain ⟨x', y', hx', hy', hsame⟩ := h
  rwa [hx.unique hx', hy.unique hy']

/-- Without annotations, corresponding nodes show the same. -/
theorem Alike.without_depict {label : Text} {f : NodeId → NodeId} {a p : Tree}
    (h : Alike label f a p) (hp : p.Sound) (d : Nat) {n : NodeId}
    (hn : p.attributeName n ≠ some label) :
    (a.depict d (f n)).without label = (p.depict d n).without label := by
  induction d generalizing n with
  | zero =>
    rw [depict, depict, h.attributeName_eq]
  | succ d ih =>
    rcases h.twins n with hsame | ⟨hkind, -, -, -, -⟩
    · have hnamed (t : Tree) : (fun c : Ast => decide (c.attributeName ≠ some label)) ∘
          (fun c => (t.depict d c).without label) =
            fun c => decide (t.attributeName c ≠ some label) := by
        funext c
        simp only [Function.comp_apply, Ast.attributeName_without, attributeName_depict]
      have hkept :
          (a.kind (f n)).keepAttributes (fun c => decide (a.attributeName c ≠ some label)) =
          ((p.kind n).keepAttributes fun c => decide (p.attributeName c ≠ some label)).map f := by
        rw [← Kind.keepAttributes_keepAttributes (r := reaches f), hsame, Kind.keepAttributes_map]
        · simp only [Function.comp_def, h.attributeName_eq]
        · intro hform c hc hname
          rw [← Bool.not_eq_false]
          intro hreach
          refine of_decide_eq_true hname (h.listed (f n) c ?_ hreach)
          rw [attributes_eq_children hform]
          exact hc
      simp only [depict, Ast.without_node, Kind.map_map, Kind.keepAttributes_map, hnamed, hkept,
        h.span_eq]
      refine congrArg _ (Kind.map_congr fun c hc => ih ?_)
      by_cases hform : (p.kind n).form = .opening
      · cases hk : p.kind n with
        | opening name attributes selfClosing =>
          rw [hk] at hc
          exact of_decide_eq_true (List.mem_filter.mp hc).2
        | _ => exact absurd hform (by simp [hk, Kind.form])
      · -- Attributes stand in tags only.
        rw [Kind.keepAttributes_of_form hform] at hc
        intro hname
        obtain ⟨value, hkind⟩ := attributeName_eq_some hname
        have hadm := hp.shaped hc
        rw [show p.form c = .attr from congrArg Kind.form hkind] at hadm
        exact hform hadm
    · rw [attributeName, hkind] at hn
      exact absurd rfl hn

/-- Without annotations, alike stores show the same. -/
theorem Alike.sameWithout {label : Text} {f : NodeId → NodeId} {a p : Tree}
    (h : Alike label f a p) (ha : a.Linked) (hp : p.Sound) (hroot : p.attributeName root = none) :
    SameWithout label a p := by
  have hwide : p.size ≤ max a.size p.size + (p.ancestors root).length :=
    Nat.le_trans (Nat.le_max_right ..) (Nat.le_add_right ..)
  have hwide' : a.size ≤ max a.size p.size + (a.ancestors root).length :=
    Nat.le_trans (Nat.le_max_left ..) (Nat.le_add_right ..)
  refine ⟨_, _, ha.depicts_depict ha.nonempty hwide',
    hp.linked.depicts_depict hp.linked.nonempty hwide,
    ?_⟩
  have hsame := h.without_depict hp (max a.size p.size) (n := root) (by simp [hroot])
  rwa [h.root_eq] at hsame

end Tree

end JsxStyle
