import JsxStyle.Print
import JsxStyle.Proofs.Graft

/-!
# Printing as a recursion over the tree

Printing goes down a bounded number of levels.  In a linked store no chain of
parents is as long as the store, so the bound cuts nothing off, and what is
printed of a node depends on the node and on what is printed of its children
alone.  A tree without places in the source is printed the same in every store:
what is written then depends on the tree alone, but for a string, which is
written differently as the value of an attribute.

* `Linked.printNode_eq`: printing a node from what is printed of its children;
* `printNode_of_depicts`: printing a tree that has no places in the source.
-/

namespace JsxStyle

/-- Two functions that agree on the nodes below make the same kind. -/
theorem Kind.map_congr {α β : Type} {f g : α → β} {k : Kind α} (h : ∀ c ∈ k.children, f c = g c) :
    k.map f = k.map g := by
  cases k with
  | attr name value => cases value <;> simp_all [Kind.map, Kind.children]
  | container expression => cases expression <;> simp_all [Kind.map, Kind.children]
  | _ => simp_all [Kind.map, Kind.children]

theorem Kind.map_map {α β γ : Type} (f : α → β) (g : β → γ) (k : Kind α) :
    (k.map f).map g = k.map fun c => g (f c) := by
  cases k with
  | attr name value => cases value <;> rfl
  | container expression => cases expression <;> rfl
  | _ => simp [Kind.map, Function.comp_def]

namespace Ast

/-- What is written for a tree without places, as the value of an attribute or elsewhere. -/
def written (a : Ast) : Bool → Printed :=
  a.fold fun _ k inAttribute => (k.map (· (k.form = .attr))).render inAttribute

theorem written_node (s : Option Span) (k : Kind Ast) (inAttribute : Bool) :
    (node s k).written inAttribute =
      (k.map fun c => c.written (k.form = .attr)).render inAttribute := by
  unfold written
  rw [fold_node]
  simp only [Kind.map_map, Kind.form_map]

end Ast

namespace Tree

variable {t : Tree}

/-- Below a node, a bound on the depth that reaches as far as the store is large
is as good as any larger one. -/
theorem Linked.printWithin_eq (ht : t.Linked) {d e : Nat} {n : NodeId}
    (hd : t.size ≤ d + (t.ancestors n).length) (hde : d ≤ e) :
    t.printWithin e n = t.printWithin d n := by
  induction d generalizing e n with
  | zero =>
    have hlt := ht.length_ancestorsWithin_lt t.size n
    rw [Nat.zero_add] at hd
    exact absurd hd (Nat.not_le.mpr hlt)
  | succ d ih =>
    obtain ⟨e, rfl⟩ : ∃ e', e = e' + 1 := ⟨e - 1, by omega⟩
    have hbelow : (t.kind n).map (t.printWithin e) = (t.kind n).map (t.printWithin d) := by
      refine Kind.map_congr fun c hc => ih ?_ (by omega)
      rw [ht.ancestors_eq_cons (ht.mem_children.mp hc), List.length_cons]
      omega
    rw [printWithin, printWithin, hbelow]

/-- Printing below a node is printing the nodes below. -/
theorem Linked.map_printWithin (ht : t.Linked) {k : Nat} (hk : t.size = k + 1) (n : NodeId) :
    (t.kind n).map (t.printWithin k) = (t.kind n).map t.printNode := by
  refine Kind.map_congr fun c hc => (ht.printWithin_eq ?_ (by omega)).symm
  rw [ht.ancestors_eq_cons (ht.mem_children.mp hc), List.length_cons]
  omega

/-- A node is copied from the source or put together from what is printed of its children. -/
theorem Linked.printNode_eq (ht : t.Linked) (n : NodeId) :
    t.printNode n =
      match t.span n, t.dirty n with
      | some s, false => Printed.ofText (s.of t.source)
      | s, _ => (s.map Printed.mark).getD Printed.empty ++
          ((t.kind n).map t.printNode).render (t.inAttribute n) := by
  obtain ⟨k, hk⟩ : ∃ k, t.size = k + 1 := Nat.exists_eq_add_one.mpr ht.nonempty
  conv_lhs => rw [printNode, hk, printWithin, ht.map_printWithin hk]
  rfl

/-- The text of a node that is not copied, without a look at mappings. -/
theorem Linked.code_printNode_of_dirty (ht : t.Linked) {n : NodeId} (hn : t.dirty n = true) :
    (t.printNode n).code = (((t.kind n).map t.printNode).render (t.inAttribute n)).code := by
  rw [ht.printNode_eq, hn]
  cases t.span n <;> rfl

/-- A tree without places is printed as it is written. -/
theorem printNode_of_depicts (ht : t.Linked) {n : NodeId} {a : Ast} (h : t.Depicts n a)
    (hplace : a.Every fun b => b.span = none) :
    t.printNode n = a.written (t.inAttribute n) := by
  induction h with
  | @node n z hlt hkind hbelow ih =>
    obtain ⟨hself, hchildren⟩ := Ast.every_node.mp hplace
    have hspan : t.span n = none := hself
    rw [ht.printNode_eq, hspan, Ast.written_node, hkind, Kind.map_map, Kind.map_map]
    refine (Printed.empty_append _).trans ?_
    refine congrArg (Kind.render (t.inAttribute n)) (Kind.map_congr fun p hp => ?_)
    have hmem : p.1 ∈ (z.map Prod.fst).children := by
      rw [Kind.children_map]
      exact List.mem_map_of_mem hp
    have hparent : t.parent p.2 = some n := by
      rw [← ht.mem_children, children, hkind, Kind.children_map]
      exact List.mem_map_of_mem hp
    rw [ih p hp (hchildren p.1 hmem), inAttribute, hparent, Option.any_some, form, hkind,
      Kind.form_map, Kind.form_map]

end Tree

end JsxStyle
