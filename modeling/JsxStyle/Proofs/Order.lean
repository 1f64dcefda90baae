import JsxStyle.Proofs.Moves
import JsxStyle.Proofs.Nesting

/-!
# The order of the nodes

The walk from the root gives the nodes in the order of their places as long as
what is below a node does not begin behind the next one.  Where all places end
inside the place above, this is so.  It is not so for every module: an import in
braces ends one line break behind them, and what stands in a template that
began in braces may be found a second time behind them.

* `nested_ofSource`: the places of the nodes of a module;
* `ascending_descendantsWithin`: nodes without overruns are walked in order;
* `nested_unless_overrun`: both for a module, with the two modules that show
  why the order needs the condition.
-/

namespace JsxStyle

namespace Tree

variable {t : Tree} {source : Text}

theorem Depicts.span_eq {n : NodeId} {a : Ast} (h : t.Depicts n a) : t.span n = a.span := by
  cases h
  rfl

/-- A node with a place between seams whose children fill it. -/
structure NestedAt (t : Tree) (source : Text) (n : NodeId) (s : Span) : Prop where
  span : t.span n = some s
  lo : Seam source s.lo
  hi : Seam source s.hi
  le : s.lo ≤ s.hi
  fills : Fills t.span t.form (t.form n) s.lo s.hi (t.children n)

theorem Depicts.same {n : NodeId} {a : Ast} (h : t.Depicts n a) :
    t.span n = a.span ∧ t.form n = a.kind.form :=
  ⟨h.span_eq, h.form_eq⟩

theorem nestedAt_of_depicts {n : NodeId} {a : Ast} (h : t.Depicts n a) (ha : a.Nested source) :
    ∃ s, t.NestedAt source n s := by
  have hform := h.form_eq
  cases h with
  | node z _ hkind hbelow =>
    generalize hs : t.span n = s? at ha
    cases ha with
    | @node s _ hlo hhi hle hfill _ =>
      refine ⟨s, hs, hlo, hhi, hle, ?_⟩
      rw [hform, children, hkind, Kind.children_map]
      rw [Kind.children_map] at hfill
      refine hfill.of_forall₂ ?_
      rw [List.forall₂_map_left_iff, List.forall₂_map_right_iff, List.forall₂_same]
      exact fun p hp => (hbelow p hp).same

theorem nested_ofSource (h : ofSource source = .ok t) {n : NodeId} (hn : n < t.size) :
    ∃ s, t.NestedAt source n s := by
  obtain ⟨body, hbody, rfl⟩ := map_eq_ok.mp h
  have hholds := ofBody_holds source body
  obtain ⟨horder, hall⟩ := Read.nested_program hbody
  by_cases hroot : n = root
  · subst hroot
    obtain ⟨ids, hkind, hids⟩ := hholds.program
    refine ⟨_, hholds.root_span, .zero source, .length source, Nat.zero_le _, .inl ?_⟩
    rw [children, hkind]
    exact horder.of_forall₂ (hids.imp fun _ _ hdepicts => hdepicts.span_eq)
  · obtain ⟨a, ha, b, hsub, hdepicts, -⟩ := hholds.others n hroot hn
    exact nestedAt_of_depicts hdepicts ((hall a ha).sub hsub)

/-- The places of nodes do not begin before those of the nodes in front. -/
def Ascending (t : Tree) (ids : List NodeId) : Prop :=
  ids.Pairwise fun a b => ∀ s s', t.span a = some s → t.span b = some s' → s.lo ≤ s'.lo

/-- Nodes whose places begin between two offsets. -/
def BeginWithin (t : Tree) (lo hi : Nat) (ids : List NodeId) : Prop :=
  ∀ n ∈ ids, ∃ s, t.span n = some s ∧ lo ≤ s.lo ∧ s.lo ≤ hi

/-- What is below nodes in order is in order, if it is below each of them. -/
theorem ascending_flatMap {below : NodeId → List NodeId} {lo hi : Nat} {ids : List NodeId}
    (horder : InOrder t.span lo hi ids)
    (hbelow : ∀ c ∈ ids, ∀ s, t.span c = some s → t.BeginWithin s.lo s.hi (below c) ∧
      t.Ascending (below c)) :
    t.BeginWithin lo hi (ids.flatMap fun c => c :: below c) ∧
      t.Ascending (ids.flatMap fun c => c :: below c) := by
  induction ids generalizing lo with
  | nil => exact ⟨by simp [BeginWithin], .nil⟩
  | cons c rest ih =>
    obtain ⟨s, hs, hlo, hle, hmore⟩ := horder
    obtain ⟨hc, hrest⟩ := List.forall_mem_cons.mp hbelow
    obtain ⟨hcWithin, hcAscending⟩ := hc s hs
    obtain ⟨hrestWithin, hrestAscending⟩ := ih hmore hrest
    have hhi := hmore.le
    have hself : t.BeginWithin s.lo s.hi (c :: below c) :=
      List.forall_mem_cons.mpr ⟨⟨s, hs, Nat.le_refl _, hle⟩, hcWithin⟩
    have hascending : t.Ascending (c :: below c) := by
      refine List.pairwise_cons.mpr ⟨fun m hm s₁ s₂ h₁ h₂ => ?_, hcAscending⟩
      obtain ⟨s', hs', hlo', -⟩ := hcWithin m hm
      obtain rfl := Option.some.inj (hs.symm.trans h₁)
      obtain rfl := Option.some.inj (hs'.symm.trans h₂)
      exact hlo'
    rw [List.flatMap_cons]
    constructor
    · intro m hm
      rcases List.mem_append.mp hm with hm | hm
      · obtain ⟨s', hs', hlo', hhi'⟩ := hself m hm
        exact ⟨s', hs', by omega, by omega⟩
      · obtain ⟨s', hs', hlo', hhi'⟩ := hrestWithin m hm
        exact ⟨s', hs', by omega, hhi'⟩
    · refine List.pairwise_append.mpr ⟨hascending, hrestAscending, fun a ha b hb s₁ s₂ h₁ h₂ => ?_⟩
      obtain ⟨sa, hsa, -, ha⟩ := hself a ha
      obtain ⟨sb, hsb, hb, -⟩ := hrestWithin b hb
      obtain rfl := Option.some.inj (hsa.symm.trans h₁)
      obtain rfl := Option.some.inj (hsb.symm.trans h₂)
      omega

/-- Below nodes whose children are in order everything is. -/
theorem ascending_descendantsWithin (ht : t.Linked)
    (horder : ∀ n < t.size, ∀ s, t.span n = some s → InOrder t.span s.lo s.hi (t.children n))
    (depth : Nat) {n : NodeId} (hn : n < t.size) {s : Span} (hs : t.span n = some s) :
    t.BeginWithin s.lo s.hi (t.descendantsWithin depth n) ∧
      t.Ascending (t.descendantsWithin depth n) := by
  induction depth generalizing n s with
  | zero => exact ⟨by simp [BeginWithin, descendantsWithin], .nil⟩
  | succ depth ih =>
    refine ascending_flatMap (horder n hn s hs) fun c hc s' hs' => ih (ht.lt_size_of_mem hc) hs'

theorem linked_ofSource (h : ofSource source = .ok t) : t.Linked := by
  obtain ⟨body, -, rfl⟩ := map_eq_ok.mp h
  exact (ofBody_holds source body).linked

/-- The places of a module nest, except that a fragment may be overrun by its last
part; where no node ends behind the one above, the nodes are in the order of the source. -/
theorem nested_unless_overrun (h : ofSource source = .ok t) :
    (∀ n < t.size, ∃ s, t.NestedAt source n s) ∧
      ((∀ n < t.size, ∀ c ∈ t.children n, ∀ s s', t.span n = some s → t.span c = some s' →
          s'.hi ≤ s.hi) →
        t.Ascending (t.descendants root)) := by
  refine ⟨fun n hn => nested_ofSource h hn, fun hends => ?_⟩
  have hlinked := linked_ofSource h
  have horder : ∀ n < t.size, ∀ s, t.span n = some s → InOrder t.span s.lo s.hi (t.children n) := by
    intro n hn s hs
    obtain ⟨s', hnested⟩ := nested_ofSource h hn
    obtain rfl := Option.some.inj (hnested.span.symm.trans hs)
    apply hnested.fills.resolve_right
    rintro ⟨-, init, last, s', hchildren, -, hlast, -, hover, -⟩
    have hle := hends n hn last (by simp [hchildren]) _ _ hs hlast
    omega
  obtain ⟨s, hroot⟩ := nested_ofSource h hlinked.nonempty
  exact (ascending_descendantsWithin hlinked horder _ hlinked.nonempty hroot.span).2

/-- Markup in an expression in braces nests. -/
theorem conditional_nested :
    ∃ t, ofSource (Text.ofString "x = <a b={c && <i/>} />") = .ok t ∧
      (∀ n < t.size, ∃ s, t.NestedAt (Text.ofString "x = <a b={c && <i/>} />") n s) ∧
        t.Ascending (t.descendants root) := by
  have hread : ((ofSource (Text.ofString "x = <a b={c && <i/>} />")).toOption.any fun t =>
      (List.range t.size).all fun n => (t.children n).all fun c =>
        (t.span n).all fun s => (t.span c).all fun s' => s'.hi ≤ s.hi) = true := by
    decide +kernel
  obtain ⟨t, hread, hends⟩ := exists_of_any hread
  obtain ⟨hnested, hascending⟩ := nested_unless_overrun hread
  refine ⟨t, hread, hnested, hascending fun n hn c hc s s' hs hs' => ?_⟩
  have hall := List.all_eq_true.mp (List.all_eq_true.mp hends n (List.mem_range.mpr hn)) c hc
  simpa [hs, hs'] using hall

/-- An import takes the line break behind it along, out of the braces that it
stands in, and a template may end behind the code that it begins in, so that the
code behind its tag comes in front of what is found later. -/
theorem not_always_nested :
    ¬ ((∀ (source : Text) (t : Tree), ofSource source = .ok t → ∀ n < t.size, ∀ c ∈ t.children n,
          ∀ s s', t.span n = some s → t.span c = some s' → s'.Within s) ∨
        ∀ (source : Text) (t : Tree), ofSource source = .ok t →
          t.Ascending (t.descendants root)) := by
  rintro (hnested | hascending)
  · have hread : ((ofSource (Text.ofString "x = <a>\x7b\nimport y from 'z'\n\x7d</a>")).toOption.any
        fun t => 4 < t.size ∧ 3 ∈ t.children 4 ∧ t.span 4 = some ⟨9, 26⟩ ∧
          t.span 3 = some ⟨9, 27⟩) = true := by
      decide +kernel
    obtain ⟨t, hread, hfacts⟩ := exists_of_any hread
    obtain ⟨hn, hc, hs, hs'⟩ := of_decide_eq_true hfacts
    exact absurd (hnested _ t hread 4 hn 3 hc _ _ hs hs') (by decide)
  · have hread : ((ofSource (Text.ofString
        "x = <a>\x7bc && <b>\x60</b>x\x60\x7d<i/></a>$\x7by\x7d\x60\x60")).toOption.any fun t =>
          t.descendants root = [1, 14, 2, 11, 10, 3, 6, 4, 5, 9, 7, 8, 13, 12, 15] ∧
            t.span 8 = some ⟨34, 35⟩ ∧ t.span 13 = some ⟨24, 28⟩) = true := by
      decide +kernel
    obtain ⟨t, hread, hfacts⟩ := exists_of_any hread
    obtain ⟨hdescendants, hs, hs'⟩ := of_decide_eq_true hfacts
    have h := hascending _ t hread
    rw [hdescendants] at h
    have hpair : [8, 13].Sublist [1, 14, 2, 11, 10, 3, 6, 4, 5, 9, 7, 8, 13, 12, 15] := by decide
    have hle := List.rel_of_pairwise_cons (h.sublist hpair) List.mem_cons_self _ _ hs hs'
    exact absurd hle (by decide)

end Tree

end JsxStyle
