import JsxStyle.Proofs.Account
import JsxStyle.Proofs.Marks
import JsxStyle.Proofs.Printing

/-!
# Mappings

What is printed of a node is put together from texts and from what is printed of
its children, one after the other and in order.  A piece of output stands in a
longer one with its mappings shifted to where it begins, so the mappings of the
whole fall into those of its parts.  A node adds a mapping of its own in front when
it is touched and has a place in the source.  Nothing touched is below a node that
is copied, so all touched nodes with a place are found, each once, in the order in
which the tree is walked.

* `Kind.woven_render`: what is written of a kind takes in each child once, in order;
* `Lists.append`: what two pieces of output list, they list together;
* `lists_printNode`: the mappings of a node are those of the touched nodes in it.
-/

namespace JsxStyle

namespace Printed

variable {p q : Printed}

/-- Mappings to parts of the output that come one after the other. -/
structure Ordered (p : Printed) : Prop where
  rising : p.mappings.Pairwise fun m m' => m.generated ≤ m'.generated
  within : ∀ m ∈ p.mappings, m.generated ≤ p.code.length

/-- Plain text has no mappings to order. -/
theorem ordered_ofText (text : Text) : (ofText text).Ordered :=
  ⟨.nil, fun _ h => absurd h List.not_mem_nil⟩

/-- A single mapping is in order. -/
theorem ordered_mark (s : Span) : (mark s).Ordered :=
  ⟨List.pairwise_singleton .., fun m h => by
    obtain rfl := List.mem_singleton.mp h
    exact Nat.le_refl 0⟩

/-- Mappings in order, one output behind the other, are in order. -/
theorem Ordered.append (hp : p.Ordered) (hq : q.Ordered) : (p ++ q).Ordered := by
  constructor
  · rw [mappings_append, List.pairwise_append, List.pairwise_map]
    refine ⟨hp.rising, hq.rising.imp fun h => Nat.add_le_add_left h _, fun m hm m' hm' => ?_⟩
    obtain ⟨m', -, rfl⟩ := List.mem_map.mp hm'
    exact Nat.le_trans (hp.within m hm) (Nat.le_add_right ..)
  · intro m hm
    rw [code_append, List.length_append]
    rw [mappings_append] at hm
    rcases List.mem_append.mp hm with hm | hm
    · exact Nat.le_trans (hp.within m hm) (Nat.le_add_right ..)
    · obtain ⟨m', hm', rfl⟩ := List.mem_map.mp hm
      exact Nat.add_le_add_left (hq.within m' hm') _

end Printed

/-- Output made of texts and of what is printed for some things, one after the other. -/
inductive Woven {α : Type} (f : α → Printed) : List α → Printed → Prop
  | text (t : Text) : Woven f [] (Printed.ofText t)
  | child (a : α) : Woven f [a] (f a)
  | append {as bs : List α} {p q : Printed} (hp : Woven f as p) (hq : Woven f bs q) :
      Woven f (as ++ bs) (p ++ q)

namespace Woven

variable {α : Type} {f : α → Printed} {as : List α} {p : Printed}

/-- Text may be woven in at the front. -/
theorem textAppend (t : Text) (h : Woven f as p) : Woven f as (Printed.ofText t ++ p) :=
  (text t).append h

/-- Text may be woven in at the end. -/
theorem appendText (h : Woven f as p) (t : Text) : Woven f as (p ++ Printed.ofText t) := by
  have happend := h.append (text t)
  rwa [List.append_nil] at happend

/-- What is woven of each thing is woven of all, one after the other. -/
theorem concat (g : α → Printed) (hg : ∀ a, Woven f [a] (g a)) (as : List α) :
    Woven f as (Printed.concat (as.map g)) := by
  induction as with
  | nil => exact text []
  | cons a rest ih => exact (hg a).append ih

/-- Things are woven with a separator between them. -/
theorem joined (sep : Text) (as : List α) :
    Woven f as (Printed.joined (Printed.ofText sep) (as.map f)) := by
  induction as with
  | nil => exact text []
  | cons a rest ih =>
    cases rest with
    | nil => exact child a
    | cons b rest => exact (child a).append (ih.textAppend sep)

/-- A template has room for all of its holes. -/
theorem interleave {chunks : List Text} (hlength : as.length ≤ chunks.length) :
    Woven f as (JsxStyle.interleave chunks (as.map f)) := by
  induction chunks generalizing as with
  | nil =>
    obtain rfl := List.length_eq_zero_iff.mp (Nat.le_zero.mp hlength)
    exact text []
  | cons chunk chunks ih =>
    cases as with
    | nil => exact (ih (Nat.zero_le _)).textAppend chunk
    | cons hole holes =>
      have hmore := ih (Nat.le_of_succ_le_succ hlength)
      exact (((text _).append (child hole)).appendText _).append hmore

/-- Woven output is in order if what is printed for each thing is. -/
theorem ordered (h : Woven f as p) (hordered : ∀ a ∈ as, (f a).Ordered) : p.Ordered := by
  induction h with
  | text t => exact Printed.ordered_ofText t
  | child a => exact hordered a List.mem_cons_self
  | append _ _ ihp ihq =>
    obtain ⟨hp, hq⟩ := List.forall_mem_append.mp hordered
    exact (ihp hp).append (ihq hq)

end Woven

/-- What is written of a kind is made of texts and of its children in order. -/
theorem Kind.woven_render {α : Type} (f : α → Printed) {k : Kind α} (hpaired : k.Paired)
    (inAttribute : Bool) : Woven f k.children ((k.map f).render inAttribute) := by
  cases k with
  | program items | fragment items => exact .concat f .child items
  | code t | text t | ident t | importing decl | str value quote => exact .text _
  | element head children closing =>
    exact ((Woven.child head).append (.concat f .child children)).appendText _
  | opening name attributes selfClosing =>
    have hattributes : Woven f attributes
        (Printed.concat (attributes.map fun a => Printed.ofText [Ascii.space] ++ f a)) :=
      .concat _ (fun a => (Woven.child a).textAppend _) attributes
    have hwritten : (attributes.map f).map (Printed.ofText [Ascii.space] ++ ·) =
        attributes.map fun a => Printed.ofText [Ascii.space] ++ f a := List.map_map
    rw [← hwritten] at hattributes
    exact (hattributes.textAppend _).appendText _
  | attr name value =>
    cases value with
    | none => exact .text _
    | some value => exact (Woven.child value).textAppend _
  | spread argument => exact ((Woven.child argument).textAppend _).appendText _
  | container expression =>
    cases expression with
    | none => exact ((Woven.text []).textAppend [Ascii.openBrace]).appendText _
    | some e => exact ((Woven.child e).textAppend _).appendText _
  | array elements => exact ((Woven.joined _ elements).textAppend _).appendText _
  | member object property => exact (Woven.child object).appendText _
  | call callee arguments =>
    exact (((Woven.child callee).appendText _).append (.joined _ arguments)).appendText _
  | template tag chunks holes =>
    have hholes : Woven f holes (interleave chunks (holes.map f)) := .interleave (by
      rw [Kind.Paired] at hpaired
      omega)
    exact (((Woven.child tag).appendText _).append hholes).appendText _

namespace Tree

variable {t : Tree}

/-- What holds of a node if it holds of the nodes below it holds of every node. -/
theorem Linked.downward (ht : t.Linked) {P : NodeId → Prop}
    (h : ∀ n, (∀ c ∈ t.children n, P c) → P n) (n : NodeId) : P n := by
  suffices hall :
      ∀ k n, t.size ≤ k + (t.ancestors n).length → P n from hall _ n (Nat.le_add_right ..)
  intro k
  induction k with
  | zero =>
    intro n hn
    rw [Nat.zero_add] at hn
    exact absurd (ht.length_ancestorsWithin_lt t.size n) (Nat.not_lt.mpr hn)
  | succ k ih =>
    intro n hn
    refine h n fun c hc => ih c ?_
    rw [ht.ancestors_eq_cons (ht.mem_children.mp hc), List.length_cons]
    omega

/-- Whether printing records where a node has gone: it is touched and has a place. -/
def isMapped (t : Tree) (n : NodeId) : Bool :=
  t.dirty n && (t.span n).isSome

/-- A node and what is below it, of which printing records where they have gone. -/
def mapped (t : Tree) (n : NodeId) : List NodeId :=
  (n :: t.descendants n).filter t.isMapped

/-- The touched nodes with a place in a node: itself, and those in its children. -/
theorem Linked.mapped_eq (ht : t.Linked) (n : NodeId) :
    t.mapped n = [n].filter t.isMapped ++ (t.children n).flatMap t.mapped := by
  rw [mapped, ht.descendants_eq, ← List.singleton_append, List.filter_append, List.filter_flatMap]
  rfl

/-- The mappings of a piece of output are those of the nodes `ids`: each of these
is printed in it, and from there on its mappings and its nodes come next. -/
structure Lists (t : Tree) (p : Printed) (ids : List NodeId) : Prop where
  places : p.mappings.map (some ·.place) = ids.map t.span
  entries : ∀ before n after, ids = before ++ n :: after → ∃ front back more,
    p = front ++ t.printNode n ++ back ∧ front.mappings.length = before.length ∧
      n :: after = t.mapped n ++ more

/-- Plain text lists no nodes. -/
theorem lists_ofText (t : Tree) (text : Text) : t.Lists (Printed.ofText text) [] :=
  ⟨rfl, fun before n after h => by simp at h⟩

/-- Two pieces of output list what the first lists and then what the second does. -/
theorem Lists.append {p q : Printed} {ids ids' : List NodeId} (hp : t.Lists p ids)
    (hq : t.Lists q ids') : t.Lists (p ++ q) (ids ++ ids') := by
  constructor
  · rw [Printed.mappings_append, List.map_append, List.map_append, List.map_map, hp.places,
      ← hq.places]
    rfl
  · intro before n after hsplit
    have hplaces := congrArg List.length hp.places
    rw [List.length_map, List.length_map] at hplaces
    have hsecond (before' : List NodeId) (hbefore : before = ids ++ before')
        (hrest : ids' = before' ++ n :: after) : ∃ front back more,
          p ++ q = front ++ t.printNode n ++ back ∧ front.mappings.length = before.length ∧
            n :: after = t.mapped n ++ more := by
      obtain ⟨front, back, more, rfl, hlength, hmore⟩ := hq.entries before' n after hrest
      refine ⟨p ++ front, back, more, by simp only [Printed.append_assoc], ?_, hmore⟩
      rw [Printed.mappings_append, List.length_append, List.length_map, hlength, hplaces, hbefore,
        List.length_append]
    rcases List.append_eq_append_iff.mp hsplit with ⟨before', hbefore, hrest⟩ | ⟨inner, hids, hrest⟩
    · exact hsecond before' hbefore hrest
    · cases inner with
      | nil => exact hsecond [] (by simpa using hids.symm) hrest.symm
      | cons n' inner =>
        obtain ⟨rfl, rfl⟩ := List.cons.inj hrest
        obtain ⟨front, back, more, rfl, hlength, hmore⟩ := hp.entries before n inner hids
        refine ⟨front, back ++ q, more ++ ids', by simp only [Printed.append_assoc], hlength, ?_⟩
        rw [← List.append_assoc, ← hmore]
        rfl

/-- Woven output lists what is listed for each thing, one after the other. -/
theorem Lists.woven {ids : List NodeId} {p : Printed} (h : Woven t.printNode ids p)
    (hids : ∀ n ∈ ids, t.Lists (t.printNode n) (t.mapped n)) :
    t.Lists p (ids.flatMap t.mapped) := by
  induction h with
  | text text => exact lists_ofText t text
  | child n => simpa using hids n List.mem_cons_self
  | append _ _ ihp ihq =>
    rw [List.flatMap_append]
    obtain ⟨hp, hq⟩ := List.forall_mem_append.mp hids
    exact (ihp hp).append (ihq hq)

/-- A node that begins with its own mapping and goes on with those of the nodes in it. -/
theorem Lists.mark {n : NodeId} {s : Span} {body : Printed} {ids : List NodeId}
    (hprint : t.printNode n = Printed.mark s ++ body) (hspan : t.span n = some s)
    (hmapped : t.mapped n = n :: ids) (h : t.Lists body ids) :
    t.Lists (t.printNode n) (t.mapped n) := by
  constructor
  · rw [hprint, hmapped, Printed.mappings_append]
    simp [Printed.mark, hspan, h.places]
  · intro before m after hsplit
    rw [hmapped] at hsplit
    cases before with
    | nil =>
      obtain ⟨rfl, -⟩ := List.cons.inj hsplit
      refine ⟨Printed.empty, Printed.empty, [], by simp, rfl, ?_⟩
      rw [hmapped, List.append_nil]
      exact hsplit.symm
    | cons first before =>
      obtain ⟨-, hids⟩ := List.cons.inj hsplit
      obtain ⟨front, back, more, hbody, hlength, hmore⟩ := h.entries before m after hids
      refine ⟨Printed.mark s ++ front, back, more, ?_, ?_, hmore⟩
      · rw [hprint, hbody]
        simp only [Printed.append_assoc]
      · rw [Printed.mappings_append, List.length_append, List.length_map, hlength, List.length_cons,
          Nat.add_comm]
        rfl

/-- Nothing in an untouched node is touched. -/
theorem Faithful.mapped_of_clean {t₀ : Tree} (h : Faithful t₀ t) (ht : t.Linked) {n : NodeId}
    (hclean : t.dirty n = false) : t.mapped n = [] := by
  refine List.filter_eq_nil_iff.mpr fun m hm => ?_
  have hwithin : t.Within m n := by
    rcases List.mem_cons.mp hm with rfl | hm
    · exact .refl
    · exact (ht.mem_descendants_iff.mp hm).to_reflTransGen
  simp [isMapped, h.clean_of_within hwithin hclean]

/-- **The mappings of a node** are those of the touched nodes with a place in it. -/
theorem lists_printNode {t₀ : Tree} (h : Faithful t₀ t) (ht : t.Linked)
    (hpaired : ∀ n, (t.kind n).Paired) (n : NodeId) : t.Lists (t.printNode n) (t.mapped n) := by
  induction n using ht.downward with
  | _ n ih =>
    have hbody : t.Lists (((t.kind n).map t.printNode).render (t.inAttribute n))
        ((t.children n).flatMap t.mapped) :=
      Lists.woven (Kind.woven_render t.printNode (hpaired n) (t.inAttribute n)) ih
    have hprint := ht.printNode_eq n
    have hmapped := ht.mapped_eq n
    cases hspan : t.span n with
    | none =>
      rw [hspan] at hprint
      rw [List.filter_cons_of_neg (by simp [isMapped, hspan])] at hmapped
      rw [hmapped, hprint]
      exact (congrArg (t.Lists · _) (Printed.empty_append _)).mpr hbody
    | some s =>
      rw [hspan] at hprint
      cases hdirty : t.dirty n with
      | false =>
        rw [hdirty] at hprint
        rw [h.mapped_of_clean ht hdirty, hprint]
        exact lists_ofText t _
      | true =>
        rw [hdirty] at hprint
        rw [List.filter_cons_of_pos (by simp [isMapped, hspan, hdirty])] at hmapped
        exact .mark hprint hspan hmapped hbody

/-- The mappings of a node are in order. -/
theorem ordered_printNode (ht : t.Linked) (hpaired : ∀ n, (t.kind n).Paired) (n : NodeId) :
    (t.printNode n).Ordered := by
  induction n using ht.downward with
  | _ n ih =>
    have hbody : (((t.kind n).map t.printNode).render (t.inAttribute n)).Ordered :=
      (Kind.woven_render t.printNode (hpaired n) (t.inAttribute n)).ordered ih
    rw [ht.printNode_eq]
    split
    · exact Printed.ordered_ofText _
    · refine Printed.Ordered.append ?_ hbody
      cases t.span n with
      | none => exact Printed.ordered_ofText []
      | some s => exact Printed.ordered_mark s

/-- The entry that output has for a node, as mapping `m` at index `i`: the node is printed
where `m` says, and from `i` on come the mappings of what is printed of it, which are those
of the touched nodes in it. -/
structure Records (t : Tree) (out : Printed) (i : Nat) (n : NodeId) (m : Mapping) : Prop where
  place : t.span n = some m.place
  text : ∃ before after, out.code = before ++ (t.printNode n).code ++ after ∧
    before.length = m.generated
  inner : (t.printNode n).mappings.map (Mapping.shift m.generated) <+: out.mappings.drop i
  nodes : t.mapped n <+: (t.mapped root).drop i
  places : (t.printNode n).mappings.map (some ·.place) = (t.mapped n).map t.span

/-- Output whose mappings are the touched nodes with a place, in the order of the tree. -/
structure Charted (t : Tree) (out : Printed) : Prop where
  rising : out.mappings.Pairwise fun m m' => m.generated ≤ m'.generated
  places : out.mappings.map (some ·.place) = (t.mapped root).map t.span
  entries : ∀ i n m, (t.mapped root)[i]? = some n → out.mappings[i]? = some m → t.Records out i n m

/-- What is printed of a touched node with a place begins with its own mapping. -/
theorem Linked.mappings_of_isMapped (ht : t.Linked) {n : NodeId} (h : t.isMapped n = true) :
    ∃ s rest, t.span n = some s ∧ (t.printNode n).mappings = ⟨0, s⟩ :: rest := by
  rw [isMapped, Bool.and_eq_true] at h
  obtain ⟨s, hs⟩ := Option.isSome_iff_exists.mp h.2
  rw [ht.printNode_eq, hs, h.1]
  exact ⟨s, _, rfl, rfl⟩

/-- The mappings of a printed tree. -/
theorem charted_print {t₀ : Tree} (h : Faithful t₀ t) (ht : t.Linked)
    (hpaired : ∀ n, (t.kind n).Paired) : t.Charted t.print := by
  have hlists := lists_printNode h ht hpaired
  refine ⟨(ordered_printNode ht hpaired root).rising, (hlists root).places, fun i n m hn hm => ?_⟩
  obtain ⟨hi, rfl⟩ := List.getElem?_eq_some_iff.mp hn
  have hmapped : t.isMapped (t.mapped root)[i] = true :=
    (List.mem_filter.mp (List.getElem_mem hi)).2
  obtain ⟨s, rest, hs, hself⟩ := ht.mappings_of_isMapped hmapped
  -- The node splits the output into what is printed in front of it and behind it.
  have hsplit : t.mapped root =
      (t.mapped root).take i ++ (t.mapped root)[i] :: (t.mapped root).drop (i + 1) := by
    rw [← List.drop_eq_getElem_cons hi, List.take_append_drop]
  obtain ⟨front, back, more, hprint, hlength, hmore⟩ := (hlists root).entries _ _ _ hsplit
  rw [List.length_take, Nat.min_eq_left (Nat.le_of_lt hi)] at hlength
  have hdrop : t.print.mappings.drop i =
      (t.printNode (t.mapped root)[i]).mappings.map (Mapping.shift front.code.length) ++
        back.mappings.map
          (Mapping.shift (front ++ t.printNode (t.mapped root)[i]).code.length) := by
    rw [print, hprint, Printed.mappings_append, Printed.mappings_append, List.append_assoc,
      List.drop_left' hlength]
  have hfirst : m = ⟨front.code.length, s⟩ := by
    have hhead := congrArg List.head? hdrop
    rw [List.head?_drop, hm, hself] at hhead
    exact Option.some.inj hhead
  subst hfirst
  refine ⟨hs, ⟨front.code, back.code, ?_, rfl⟩, ?_, ?_, (hlists _).places⟩
  · rw [print, hprint]
    rfl
  · rw [hdrop]
    exact List.prefix_append ..
  · rw [List.drop_eq_getElem_cons hi, hmore]
    exact List.prefix_append ..

end Tree

end JsxStyle
