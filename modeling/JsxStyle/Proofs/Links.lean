import JsxStyle.Proofs.Store
import Mathlib.Data.List.Perm.Basic
import Mathlib.Logic.Relation

/-!
# Links up and lists down

A store keeps the shape of a module twice: each node lists its children and
each node names its parent.  A store is *linked* when the two agree, no list
names a node twice, and no chain of parents comes back to where it began.

In a linked store the walks of bounded length miss nothing.  A chain of parents
has no repetition, so it is shorter than the store, and looking down from a node
finds exactly the nodes from which looking up finds it.

* `mem_ancestors_iff`, `mem_descendants_iff`: both walks are the closure of the
  parent links;
* `isAttached_iff_mem_descendants`: what has the root above it is what is found
  below the root;
* `filter_descendants`: looking down meets the children of a node in their order;
* `ancestors_eq_cons`: the ancestors of a node are its parent and the ancestors
  of that.
-/

namespace JsxStyle

namespace Tree

/-- One step up: `p` is the parent of `c`. -/
def Up (t : Tree) (c p : NodeId) : Prop :=
  t.parent c = some p

/-- `n` stands somewhere below `a`. -/
def Below (t : Tree) (n a : NodeId) : Prop :=
  Relation.TransGen t.Up n a

/-- `n` is `a` or stands somewhere below it. -/
def Within (t : Tree) (n a : NodeId) : Prop :=
  Relation.ReflTransGen t.Up n a

/-- Parent links and child lists describe one and the same forest, with the
root at the top of a tree of it. -/
structure Linked (t : Tree) : Prop where
  nonempty : 0 < t.size
  root_free : t.parent root = none
  mem_children : ∀ {p c : NodeId}, c ∈ t.children p ↔ t.parent c = some p
  nodup : ∀ p : NodeId, (t.children p).Nodup
  /-- Every chain of parents ends. -/
  grounded : ∀ n : NodeId, Acc (fun p c => t.Up c p) n

section Walks

variable {t : Tree}

/-- A walk of one more step reaches the parents of what the walk reached before. -/
theorem mem_ancestorsWithin_succ {d : Nat} {n a : NodeId} :
    a ∈ t.ancestorsWithin (d + 1) n ↔
      ∃ c, (c = n ∨ c ∈ t.ancestorsWithin d n) ∧ t.parent c = some a := by
  induction d generalizing n with
  | zero =>
    rw [ancestorsWithin]
    cases hp : t.parent n with
    | none => simp [ancestorsWithin, hp]
    | some p => simp [ancestorsWithin, hp, eq_comm]
  | succ d ih =>
    rw [ancestorsWithin]
    cases hp : t.parent n with
    | none =>
      constructor
      · intro h
        exact absurd h (by simp)
      · rintro ⟨c, rfl | hc, hca⟩
        · rw [hp] at hca
          exact absurd hca (by simp)
        · rw [ancestorsWithin, hp] at hc
          exact absurd hc (by simp)
    | some p =>
      constructor
      · intro h
        rcases List.mem_cons.mp h with rfl | h
        · exact ⟨n, Or.inl rfl, hp⟩
        · obtain ⟨c, hc, hca⟩ := ih.mp h
          refine ⟨c, Or.inr ?_, hca⟩
          rw [ancestorsWithin, hp]
          exact List.mem_cons.mpr hc
      · rintro ⟨c, rfl | hc, hca⟩
        · rw [hp] at hca
          cases hca
          exact List.mem_cons_self
        · rw [ancestorsWithin, hp] at hc
          exact List.mem_cons_of_mem _ (ih.mpr ⟨c, List.mem_cons.mp hc, hca⟩)

/-- More steps find all the ancestors that fewer do. -/
theorem mem_ancestorsWithin_of_le {d e : Nat} (hde : d ≤ e) {n a : NodeId}
    (h : a ∈ t.ancestorsWithin d n) : a ∈ t.ancestorsWithin e n := by
  induction d generalizing e n with
  | zero => exact absurd h (by simp [ancestorsWithin])
  | succ d ih =>
    obtain ⟨e, rfl⟩ : ∃ e', e = e' + 1 := ⟨e - 1, by omega⟩
    rw [ancestorsWithin] at h ⊢
    cases hp : t.parent n with
    | none => simp [hp] at h
    | some p =>
      rw [hp] at h
      rcases List.mem_cons.mp h with rfl | h
      · exact List.mem_cons_self
      · exact List.mem_cons_of_mem _ (ih (by omega) h)

/-- A walk that ended before its bound is the same for every larger bound. -/
theorem ancestorsWithin_eq_of_le {d e : Nat} {n : NodeId}
    (hlen : (t.ancestorsWithin d n).length < d) (hde : d ≤ e) :
    t.ancestorsWithin e n = t.ancestorsWithin d n := by
  induction d generalizing e n with
  | zero => exact absurd hlen (Nat.not_lt_zero _)
  | succ d ih =>
    obtain ⟨e, rfl⟩ : ∃ e', e = e' + 1 := ⟨e - 1, by omega⟩
    rw [ancestorsWithin] at hlen ⊢
    rw [ancestorsWithin]
    cases hp : t.parent n with
    | none => rfl
    | some p =>
      simp only [hp, List.length_cons, Nat.succ_lt_succ_iff] at hlen
      exact congrArg (p :: ·) (ih hlen (by omega))

/-- A node is below each of its ancestors. -/
theorem below_of_mem_ancestorsWithin {d : Nat} {n a : NodeId}
    (h : a ∈ t.ancestorsWithin d n) : t.Below n a := by
  induction d generalizing n with
  | zero => exact absurd h (by simp [ancestorsWithin])
  | succ d ih =>
    rw [ancestorsWithin] at h
    cases hp : t.parent n with
    | none => simp [hp] at h
    | some p =>
      rw [hp] at h
      rcases List.mem_cons.mp h with rfl | h
      · exact Relation.TransGen.single hp
      · exact Relation.TransGen.head hp (ih h)

/-- What a node is below is found in some number of steps. -/
theorem Below.exists_mem_ancestorsWithin {n a : NodeId} (h : t.Below n a) :
    ∃ d, a ∈ t.ancestorsWithin d n := by
  induction h using Relation.TransGen.head_induction_on with
  | single hp => exact ⟨1, mem_ancestorsWithin_succ.mpr ⟨_, Or.inl rfl, hp⟩⟩
  | head hp _ ih =>
    obtain ⟨d, hd⟩ := ih
    refine ⟨d + 1, ?_⟩
    rw [ancestorsWithin, hp]
    exact List.mem_cons_of_mem _ hd

end Walks

/-- Where only one entry of a list contributes, it contributes everything. -/
theorem flatMap_of_unique {α β : Type} {l : List α} (hl : l.Nodup) {f : α → List β} {a : α}
    (ha : a ∈ l) (hother : ∀ b ∈ l, b ≠ a → f b = []) : l.flatMap f = f a := by
  induction l with
  | nil => exact absurd ha (by simp)
  | cons b rest ih =>
    rw [List.nodup_cons] at hl
    rw [List.flatMap_cons]
    rcases List.mem_cons.mp ha with rfl | ha
    · have hrest : rest.flatMap f = [] := by
        rw [List.flatMap_eq_nil_iff]
        intro c hc
        exact hother c (List.mem_cons_of_mem _ hc) fun e => hl.1 (e ▸ hc)
      rw [hrest, List.append_nil]
    · have hb : f b = [] := hother b List.mem_cons_self fun e => hl.1 (e ▸ ha)
      rw [hb, List.nil_append]
      exact ih hl.2 ha fun c hc => hother c (List.mem_cons_of_mem _ hc)

/-- What stands below `a` has a parent that is `a` or stands below it. -/
theorem Below.parent_within {t : Tree} {n p a : NodeId} (h : t.Below n a)
    (hp : t.parent n = some p) : t.Within p a := by
  obtain ⟨q, hq, hqa⟩ := Relation.TransGen.head'_iff.mp h
  obtain rfl : p = q := Option.some.inj (hp.symm.trans hq)
  exact hqa

namespace Linked

variable {t : Tree}

/-- A child of some node is in range. -/
theorem lt_size_of_mem (ht : t.Linked) {p c : NodeId} (h : c ∈ t.children p) : c < t.size :=
  lt_size_of_parent (ht.mem_children.mp h)

/-- A parent of some node is in range. -/
theorem parent_lt_size (ht : t.Linked) {c p : NodeId} (h : t.parent c = some p) : p < t.size :=
  lt_size_of_mem_children (ht.mem_children.mpr h)

/-- No node stands below itself. -/
theorem not_below_self (ht : t.Linked) (n : NodeId) : ¬ t.Below n n := by
  induction ht.grounded n with
  | intro n _ ih =>
    intro h
    obtain ⟨p, hp, hpn⟩ := Relation.TransGen.head'_iff.mp h
    exact ih p hp (Relation.TransGen.tail' hpn hp)

/-- A parent does not stand at or below its child. -/
theorem not_within_of_parent (ht : t.Linked) {c p : NodeId} (hp : t.parent c = some p) :
    ¬ t.Within p c :=
  fun h => ht.not_below_self c (Relation.TransGen.head' hp h)

/-- No node is met twice on the way up. -/
theorem nodup_ancestorsWithin (ht : t.Linked) (d : Nat) (n : NodeId) :
    (n :: t.ancestorsWithin d n).Nodup := by
  induction d generalizing n with
  | zero => simp [ancestorsWithin]
  | succ d ih =>
    refine List.nodup_cons.mpr ⟨fun h => ht.not_below_self n (below_of_mem_ancestorsWithin h), ?_⟩
    rw [ancestorsWithin]
    cases t.parent n with
    | none => exact List.nodup_nil
    | some p => exact ih p

/-- A chain of parents is shorter than the store. -/
theorem length_ancestorsWithin_lt (ht : t.Linked) (d : Nat) (n : NodeId) :
    (t.ancestorsWithin d n).length < t.size := by
  by_cases hn : n < t.size
  · have hsub : n :: t.ancestorsWithin d n ⊆ List.range t.size := by
      intro a ha
      rw [List.mem_range]
      rcases List.mem_cons.mp ha with rfl | ha
      · exact hn
      · obtain ⟨c, -, hca⟩ := Relation.TransGen.tail'_iff.mp (below_of_mem_ancestorsWithin ha)
        exact ht.parent_lt_size hca
    have hlen := (List.subperm_of_subset (ht.nodup_ancestorsWithin d n) hsub).length_le
    rw [List.length_range] at hlen
    exact hlen
  · have hnil : t.ancestorsWithin d n = [] := by
      cases d with
      | zero => rfl
      | succ d => rw [ancestorsWithin, parent_of_size_le (Nat.le_of_not_lt hn)]
    rw [hnil]
    exact ht.nonempty

/-- Looking up finds every node above and nothing else. -/
theorem mem_ancestors_iff (ht : t.Linked) {n a : NodeId} : a ∈ t.ancestors n ↔ t.Below n a := by
  refine ⟨below_of_mem_ancestorsWithin, fun h => ?_⟩
  obtain ⟨d, hd⟩ := h.exists_mem_ancestorsWithin
  by_cases hle : d ≤ t.size
  · exact mem_ancestorsWithin_of_le hle hd
  · have hlt := ht.length_ancestorsWithin_lt t.size n
    rw [ancestorsWithin_eq_of_le hlt (by omega)] at hd
    exact hd

/-- The ancestors of a node are its parent and the ancestors of that. -/
theorem ancestors_eq_cons (ht : t.Linked) {n p : NodeId} (hp : t.parent n = some p) :
    t.ancestors n = p :: t.ancestors p := by
  have hlt := ht.length_ancestorsWithin_lt t.size n
  obtain ⟨k, hk⟩ : ∃ k, t.size = k + 1 := ⟨t.size - 1, by have := ht.nonempty; omega⟩
  unfold ancestors
  rw [hk, ancestorsWithin, hp] at hlt ⊢
  simp only [List.length_cons, Nat.succ_lt_succ_iff] at hlt
  exact congrArg (p :: ·) (ancestorsWithin_eq_of_le hlt (Nat.le_succ k)).symm

/-- A detached node has no ancestors. -/
theorem ancestors_eq_nil (ht : t.Linked) {n : NodeId} (hp : t.parent n = none) :
    t.ancestors n = [] := by
  obtain ⟨k, hk⟩ : ∃ k, t.size = k + 1 := ⟨t.size - 1, by have := ht.nonempty; omega⟩
  rw [ancestors, hk, ancestorsWithin, hp]

/-- A walk down finds a node exactly when a walk up from there, of the same
length, comes back. -/
theorem mem_descendantsWithin_iff (ht : t.Linked) {d : Nat} {n p : NodeId} :
    n ∈ t.descendantsWithin d p ↔ p ∈ t.ancestorsWithin d n := by
  induction d generalizing p with
  | zero => simp [descendantsWithin, ancestorsWithin]
  | succ d ih =>
    rw [mem_ancestorsWithin_succ, descendantsWithin, List.mem_flatMap]
    constructor
    · intro h
      obtain ⟨c, hc, hn⟩ := h
      refine ⟨c, ?_, ht.mem_children.mp hc⟩
      rcases List.mem_cons.mp hn with rfl | hn
      · exact Or.inl rfl
      · exact Or.inr (ih.mp hn)
    · intro h
      obtain ⟨c, hc, hcp⟩ := h
      refine ⟨c, ht.mem_children.mpr hcp, ?_⟩
      rcases hc with rfl | hc
      · exact List.mem_cons_self
      · exact List.mem_cons_of_mem _ (ih.mpr hc)

/-- Looking down finds every node below and nothing else. -/
theorem mem_descendants_iff (ht : t.Linked) {n p : NodeId} :
    n ∈ t.descendants p ↔ t.Below n p :=
  ht.mem_descendantsWithin_iff.trans ht.mem_ancestors_iff

/-- Below a node, a bound on the depth that reaches as far as the store is large
finds as much as any larger one. -/
theorem descendantsWithin_eq (ht : t.Linked) {d e : Nat} {n : NodeId}
    (hd : t.size ≤ d + (t.ancestors n).length) (hde : d ≤ e) :
    t.descendantsWithin e n = t.descendantsWithin d n := by
  induction d generalizing e n with
  | zero =>
    have hlt := ht.length_ancestorsWithin_lt t.size n
    rw [Nat.zero_add] at hd
    exact absurd hd (Nat.not_le.mpr hlt)
  | succ d ih =>
    obtain ⟨e, rfl⟩ : ∃ e', e = e' + 1 := ⟨e - 1, by omega⟩
    rw [descendantsWithin, descendantsWithin]
    refine List.flatMap_congr fun c hc => congrArg (c :: ·) (ih ?_ (by omega))
    rw [ht.ancestors_eq_cons (ht.mem_children.mp hc), List.length_cons]
    omega

/-- Below a node stand its children, each followed by what stands below it. -/
theorem descendants_eq (ht : t.Linked) (n : NodeId) :
    t.descendants n = (t.children n).flatMap fun c => c :: t.descendants c := by
  obtain ⟨k, hk⟩ : ∃ k, t.size = k + 1 := Nat.exists_eq_add_one.mpr ht.nonempty
  conv_lhs => rw [descendants, hk, descendantsWithin]
  refine List.flatMap_congr fun c hc => congrArg (c :: ·)
    (ht.descendantsWithin_eq ?_ (by omega)).symm
  rw [ht.ancestors_eq_cons (ht.mem_children.mp hc), List.length_cons]
  omega

/-- A node stands below one child of a node at most. -/
theorem eq_of_within_children (ht : t.Linked) {n b c p : NodeId} (hb : t.parent b = some p)
    (hc : t.parent c = some p) (hnb : t.Within n b) (hnc : t.Within n c) : b = c := by
  have hunique : Relator.RightUnique t.Up := fun _ _ _ h h' => Option.some.inj (h.symm.trans h')
  have hsame {x y : NodeId} (hx : t.parent x = some p) (hy : t.parent y = some p)
      (hxy : t.Within x y) : x = y := by
    rcases Relation.ReflTransGen.cases_head hxy with h | ⟨q, hq, hqy⟩
    · exact h
    · obtain rfl := Option.some.inj (hx.symm.trans hq)
      exact absurd hqy (ht.not_within_of_parent hy)
  rcases Relation.ReflTransGen.total_of_right_unique hunique hnb hnc with h | h
  · exact hsame hb hc h
  · exact (hsame hc hb h).symm

/-- One step down: the children themselves, or what is found below them. -/
theorem filter_descendantsWithin_succ (ht : t.Linked) (o : NodeId) (d : Nat) (p : NodeId) :
    (t.descendantsWithin (d + 1) p).filter (fun n => t.parent n = some o) =
      if o = p then t.children o else (t.children p).flatMap fun c =>
        (t.descendantsWithin d c).filter (fun n => t.parent n = some o) := by
  have hparent {c : NodeId} (hc : c ∈ t.children p) : t.parent c = some p := ht.mem_children.mp hc
  rw [descendantsWithin, List.filter_flatMap]
  by_cases hop : o = p
  · subst hop
    rw [if_pos rfl]
    have hone : ∀ c ∈ t.children o, (c :: t.descendantsWithin d c).filter
        (fun n => t.parent n = some o) = [c] := by
      intro c hc
      rw [List.filter_cons_of_pos (by simpa using hparent hc), List.filter_eq_nil_iff.mpr]
      intro n hn hpar
      have hbelow := below_of_mem_ancestorsWithin (ht.mem_descendantsWithin_iff.mp hn)
      exact ht.not_within_of_parent (hparent hc) (hbelow.parent_within (by simpa using hpar))
    rw [List.flatMap_congr hone, List.flatMap_singleton']
  · rw [if_neg hop]
    refine List.flatMap_congr fun c hc => List.filter_cons_of_neg ?_
    simpa [hparent hc] using Ne.symm hop

/-- In a walk down, the children of a node stand in their own order. -/
theorem filter_descendantsWithin (ht : t.Linked) (o : NodeId) (d : Nat) (p : NodeId) :
    (t.descendantsWithin (d + 1) p).filter (fun n => t.parent n = some o) =
      if o = p ∨ o ∈ t.descendantsWithin d p then t.children o else [] := by
  induction d generalizing p with
  | zero =>
    have hnil : (t.children p).flatMap (fun c => (t.descendantsWithin 0 c).filter
        (fun n => t.parent n = some o)) = [] := by
      rw [List.flatMap_eq_nil_iff]
      exact fun _ _ => rfl
    rw [ht.filter_descendantsWithin_succ, hnil]
    simp [descendantsWithin]
  | succ d ih =>
    rw [ht.filter_descendantsWithin_succ]
    by_cases hop : o = p
    · rw [if_pos hop, if_pos (Or.inl hop)]
    · rw [if_neg hop, List.flatMap_congr fun c _ => ih c]
      by_cases hmem : o ∈ t.descendantsWithin (d + 1) p
      · rw [if_pos (Or.inr hmem)]
        rw [descendantsWithin, List.mem_flatMap] at hmem
        obtain ⟨c, hc, hoc⟩ := hmem
        rw [List.mem_cons] at hoc
        have hwithin {b : NodeId} (hb : o = b ∨ o ∈ t.descendantsWithin d b) : t.Within o b := by
          rcases hb with rfl | hb
          · exact .refl
          · exact (below_of_mem_ancestorsWithin
              (ht.mem_descendantsWithin_iff.mp hb)).to_reflTransGen
        -- Only the child that `o` stands at or below contributes.
        rw [flatMap_of_unique (ht.nodup p) hc, if_pos hoc]
        intro b hb hne
        refine if_neg fun hob => hne ?_
        exact ht.eq_of_within_children (ht.mem_children.mp hb) (ht.mem_children.mp hc) (hwithin hob)
          (hwithin hoc)
      · rw [if_neg (not_or.mpr ⟨hop, hmem⟩), List.flatMap_eq_nil_iff]
        intro c hc
        refine if_neg fun hoc => hmem ?_
        rw [descendantsWithin, List.mem_flatMap]
        exact ⟨c, hc, List.mem_cons.mpr hoc⟩

/-- Among all nodes below an ancestor, the children of a node stand in their own order. -/
theorem filter_descendants (ht : t.Linked) {o p : NodeId} (h : t.Within o p) :
    (t.descendants p).filter (fun n => t.parent n = some o) = t.children o := by
  obtain ⟨d, hd⟩ : ∃ d, t.size = d + 1 := Nat.exists_eq_add_one.mpr ht.nonempty
  rw [descendants, hd, ht.filter_descendantsWithin]
  split
  case isTrue => rfl
  case isFalse hout =>
    -- The walk has come to its end before `o`, so `o` would have a chain as long as the store.
    rw [eq_comm, List.eq_nil_iff_forall_not_mem]
    intro c hc
    have hcp := ht.mem_children.mp hc
    rcases Relation.reflTransGen_iff_eq_or_transGen.mp h with rfl | hbelow
    · exact hout (Or.inl rfl)
    · have hmem := ht.mem_ancestors_iff.mpr (Relation.TransGen.head hcp hbelow)
      rw [ancestors, hd, ancestorsWithin, hcp] at hmem
      rcases List.mem_cons.mp hmem with rfl | hmem
      · exact hout (Or.inl rfl)
      · exact hout (Or.inr (ht.mem_descendantsWithin_iff.mpr hmem))

/-- A node is attached when it is the root or stands below it. -/
theorem isAttached_iff (ht : t.Linked) {n : NodeId} :
    t.isAttached n = true ↔ t.Within n root := by
  rw [isAttached, Bool.or_eq_true, beq_iff_eq, List.contains_iff_mem, ht.mem_ancestors_iff,
    Within, Relation.reflTransGen_iff_eq_or_transGen, eq_comm]
  rfl

/-- What has the root above it is what is found below the root. -/
theorem isAttached_iff_mem_descendants (ht : t.Linked) {n : NodeId} :
    t.isAttached n = true ↔ n = root ∨ n ∈ t.descendants root := by
  rw [isAttached, Bool.or_eq_true, beq_iff_eq, List.contains_iff_mem, ht.mem_descendants_iff,
    ht.mem_ancestors_iff]

/-- The nearest node of some form above a node is its parent or the nearest one above that. -/
theorem enclosing_eq (ht : t.Linked) {n p : NodeId} (hp : t.parent n = some p) (f : Form) :
    t.enclosing n f = if t.form p = f then some p else t.enclosing p f := by
  unfold enclosing findAncestor
  rw [ht.ancestors_eq_cons hp]
  by_cases hf : t.form p = f
  · rw [if_pos hf]
    exact List.find?_cons_of_pos (decide_eq_true hf)
  · rw [if_neg hf]
    exact List.find?_cons_of_neg (by simpa [form, kind] using hf)

/-- Nothing encloses a detached node. -/
theorem enclosing_eq_none (ht : t.Linked) {n : NodeId} (hp : t.parent n = none) (f : Form) :
    t.enclosing n f = none := by
  unfold enclosing findAncestor
  rw [ht.ancestors_eq_nil hp]
  rfl

end Linked

end Tree

end JsxStyle
