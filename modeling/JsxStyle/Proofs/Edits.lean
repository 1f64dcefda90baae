import JsxStyle.Proofs.Links

/-!
# Edits keep a store linked

An edit moves few links at a time: it cuts a node off, hangs a detached node
under another, or does both at one place.  Each of these is proved to keep a
store linked from what it does to parents and children alone, and then for the
edits themselves.  What has to be known is always the same: the node that comes
in is detached, is not the root, and does not have the place it goes to below it.

* `Linked.attach`, `Linked.detach`, `Linked.swap`, `Linked.enwrap`: the four
  changes of links, on any store that shows them;
* `linked_alloc`, `linked_remove`, `linked_replace`, `linked_wrap`,
  `linked_insertAfter`, `linked_append`: the edits.
-/

namespace JsxStyle

namespace Kind

variable {α : Type} [DecidableEq α]

/-- Replacing the first occurrence starts with a look at the head. -/
theorem replace_cons_eq_ite (old new head : α) (rest : List α) :
    (head :: rest).replace old new =
      if head = old then new :: rest else head :: rest.replace old new := by
  by_cases h : head = old
  · rw [if_pos h, h, List.replace_cons_self]
  · have hbeq : (old == head) = false := beq_false_of_ne (Ne.symm h)
    rw [if_neg h, List.replace_cons, hbeq]

/-- Replacing a child replaces it in the list of children. -/
@[simp] theorem children_replaceChild (old new : α) (k : Kind α) :
    (k.replaceChild old new).children = k.children.replace old new := by
  cases k with
  | element head children closing =>
    by_cases h : head = old <;> simp [replaceChild, Kind.children, replace_cons_eq_ite, h]
  | call callee arguments =>
    by_cases h : callee = old <;> simp [replaceChild, Kind.children, replace_cons_eq_ite, h]
  | template tag chunks holes =>
    by_cases h : tag = old <;> simp [replaceChild, Kind.children, replace_cons_eq_ite, h]
  | attr name value =>
    cases value with
    | none => rfl
    | some v => by_cases h : v = old <;> simp [replaceChild, Kind.children, replace_cons_eq_ite, h]
  | container expression =>
    cases expression with
    | none => rfl
    | some v => by_cases h : v = old <;> simp [replaceChild, Kind.children, replace_cons_eq_ite, h]
  | spread argument =>
    by_cases h : argument = old <;> simp [replaceChild, Kind.children, replace_cons_eq_ite, h]
  | member object property =>
    by_cases h : object = old <;> simp [replaceChild, Kind.children, replace_cons_eq_ite, h]
  | _ => rfl

/-- Replacing a child keeps the form. -/
@[simp] theorem form_replaceChild (old new : α) (k : Kind α) :
    (k.replaceChild old new).form = k.form := by
  cases k with
  | element head children closing => simp only [replaceChild]; split <;> rfl
  | call callee arguments => simp only [replaceChild]; split <;> rfl
  | template tag chunks holes => simp only [replaceChild]; split <;> rfl
  | _ => rfl

omit [DecidableEq α] in
/-- The list of a kind that can grow is the end of its children, and setting it
changes nothing before. -/
theorem exists_lead {k : Kind α} {items : List α} (h : k.items? = some items) :
    ∃ lead : List α, k.children = lead ++ items ∧
      ∀ items' : List α, (k.setItems items').children = lead ++ items' := by
  cases k with
  | program body => exact ⟨[], by simpa [items?, Kind.children] using h, fun _ => rfl⟩
  | element head children closing =>
    exact ⟨[head], by simpa [items?, Kind.children] using h, fun _ => rfl⟩
  | opening name attributes selfClosing =>
    exact ⟨[], by simpa [items?, Kind.children] using h, fun _ => rfl⟩
  | array elements => exact ⟨[], by simpa [items?, Kind.children] using h, fun _ => rfl⟩
  | call callee arguments =>
    exact ⟨[callee], by simpa [items?, Kind.children] using h, fun _ => rfl⟩
  | fragment parts => exact ⟨[], by simpa [items?, Kind.children] using h, fun _ => rfl⟩
  | _ => simp [items?] at h

/-- Where all children stand in the list that can shrink, dropping one drops it
from the children. -/
theorem children_dropChild {k : Kind α} (h : k.items? = some k.children) (child : α) :
    (k.dropChild child).children = k.children.filter (· ≠ child) := by
  obtain ⟨lead, hlead, hset⟩ := exists_lead h
  have hnil : lead = [] := by
    have := congrArg List.length hlead
    simpa using this
  unfold dropChild
  rw [h]
  simpa [hnil] using hset (k.children.filter (· ≠ child))

/-- Dropping a child keeps the form. -/
@[simp] theorem form_dropChild (child : α) (k : Kind α) : (k.dropChild child).form = k.form := by
  unfold dropChild
  split
  · exact form_setItems ..
  · split <;> rfl

end Kind

/-- Replacing one entry of a list without repetitions by a new one. -/
theorem mem_replace_iff {α : Type} [DecidableEq α] {l : List α} (hl : l.Nodup) {old new c : α}
    (hold : old ∈ l) : c ∈ l.replace old new ↔ c = new ∨ c ∈ l ∧ c ≠ old := by
  obtain ⟨xs, ys, rfl⟩ := List.append_of_mem hold
  have hxs : old ∉ xs := by grind
  rw [List.replace_append_right hxs, List.replace_cons_self]
  grind

/-- A list without repeats has none after an item is replaced by a new one. -/
theorem nodup_replace {α : Type} [DecidableEq α] {l : List α} (hl : l.Nodup) {old new : α}
    (hnew : new ∉ l) : (l.replace old new).Nodup := by
  by_cases hold : old ∈ l
  · obtain ⟨xs, ys, rfl⟩ := List.append_of_mem hold
    have hxs : old ∉ xs := by grind
    rw [List.replace_append_right hxs, List.replace_cons_self]
    grind
  · rwa [List.replace_of_not_mem hold]

namespace Tree

/-- A list with a new entry behind one of its own. -/
theorem insertBehind_append {xs : List NodeId} {anchor : NodeId} (h : anchor ∉ xs)
    (new : NodeId) (ys : List NodeId) :
    insertBehind anchor new (xs ++ anchor :: ys) = xs ++ anchor :: new :: ys := by
  induction xs with
  | nil => simp [insertBehind]
  | cons x xs ih =>
    have hx : x ≠ anchor := fun e => h (e ▸ List.mem_cons_self)
    simp only [List.cons_append, insertBehind, if_neg hx, List.cons.injEq, true_and]
    exact ih fun hm => h (List.mem_cons_of_mem _ hm)

section Grounded

variable {t t' : Tree}

/-- A chain of parents on which no link was added still ends. -/
theorem acc_of_untouched {n : NodeId} (hn : Acc (fun p c => t.Up c p) n)
    (same : ∀ m, t.Within n m → ∀ p, t'.parent m = some p → t.parent m = some p) :
    Acc (fun p c => t'.Up c p) n := by
  induction hn with
  | intro n _ ih =>
    refine Acc.intro n fun p hp => ?_
    have hup : t.Up n p := same n .refl p hp
    exact ih p hup fun m hm => same m (.head hup hm)

/-- If every node whose links are new has a chain that ends, every node has one. -/
theorem acc_of_moved (ht : ∀ n, Acc (fun p c => t.Up c p) n) (moved : NodeId → Prop)
    (same : ∀ n, ¬ moved n → ∀ p, t'.parent n = some p → t.parent n = some p)
    (hm : ∀ n, moved n → Acc (fun p c => t'.Up c p) n) (n : NodeId) :
    Acc (fun p c => t'.Up c p) n := by
  induction ht n with
  | intro n _ ih =>
    by_cases hmoved : moved n
    · exact hm n hmoved
    · exact Acc.intro n fun p hp => ih p (same n hmoved p hp)

end Grounded

namespace Linked

variable {t t' : Tree}

/-- Being linked depends on parents and children only. -/
theorem congr (ht : t.Linked) (hsize : t'.size = t.size) (hparent : ∀ n, t'.parent n = t.parent n)
    (hchildren : ∀ n, t'.children n = t.children n) : t'.Linked where
  nonempty := hsize ▸ ht.nonempty
  root_free := (hparent root).trans ht.root_free
  mem_children := by
    intro p c
    rw [hchildren, hparent]
    exact ht.mem_children
  nodup p := hchildren p ▸ ht.nodup p
  grounded n := acc_of_untouched (ht.grounded n) fun m _ p hp => (hparent m).symm.trans hp

/-- Marking a node keeps the links in order. -/
theorem markDirty (ht : t.Linked) (id : NodeId) : (t.markDirty id).Linked :=
  ht.congr (size_markDirty ..) (fun _ => parent_markDirty ..) fun _ => by
    rw [children, kind_markDirty, children]

/-- A detached node is hung under a node that is not below it. -/
theorem attach (ht : t.Linked) {above new : NodeId} (hfree : t.parent new = none)
    (hroot : new ≠ root) (hnot : ¬ t.Within above new) (hsize : t'.size = t.size)
    (hparent : ∀ n, t'.parent n = if n = new then some above else t.parent n)
    (hmem : ∀ c, c ∈ t'.children above ↔ c = new ∨ c ∈ t.children above)
    (hnodup : (t'.children above).Nodup)
    (hchildren : ∀ n, n ≠ above → t'.children n = t.children n) : t'.Linked where
  nonempty := hsize ▸ ht.nonempty
  root_free := by rw [hparent, if_neg hroot.symm]; exact ht.root_free
  mem_children := by
    intro p c
    rw [hparent]
    by_cases hp : p = above
    · subst hp
      rw [hmem, ht.mem_children]
      by_cases hc : c = new <;> simp [hc]
    · rw [hchildren p hp, ht.mem_children]
      by_cases hc : c = new
      · subst hc
        simp [hfree, Ne.symm hp]
      · simp [hc]
  nodup p := by
    by_cases hp : p = above
    · exact hp ▸ hnodup
    · exact hchildren p hp ▸ ht.nodup p
  grounded := by
    have habove : Acc (fun p c => t'.Up c p) above := by
      refine acc_of_untouched (ht.grounded above) fun m hm p hp => ?_
      have hne : m ≠ new := fun e => hnot (e ▸ hm)
      rwa [hparent, if_neg hne] at hp
    refine acc_of_moved ht.grounded (· = new) (fun n hn p hp => ?_) ?_
    · rwa [hparent, if_neg hn] at hp
    · intro n heq
      subst heq
      refine Acc.intro n fun p hp => ?_
      have hpa : t'.parent n = some p := hp
      rw [hparent, if_pos rfl] at hpa
      exact Option.some.inj hpa ▸ habove

/-- A node is cut off from its parent. -/
theorem detach (ht : t.Linked) {id above : NodeId} (hid : t.parent id = some above)
    (hsize : t'.size = t.size)
    (hparent : ∀ n, t'.parent n = if n = id then none else t.parent n)
    (habove : t'.children above = (t.children above).filter (· ≠ id))
    (hchildren : ∀ n, n ≠ above → t'.children n = t.children n) : t'.Linked where
  nonempty := hsize ▸ ht.nonempty
  root_free := by
    rw [hparent]
    split
    · rfl
    · exact ht.root_free
  mem_children := by
    intro p c
    rw [hparent]
    by_cases hp : p = above
    · subst hp
      rw [habove, List.mem_filter, ht.mem_children]
      by_cases hc : c = id <;> simp [hc]
    · rw [hchildren p hp, ht.mem_children]
      by_cases hc : c = id
      · subst hc
        simp [hid, Ne.symm hp]
      · simp [hc]
  nodup p := by
    by_cases hp : p = above
    · rw [hp, habove]
      exact (ht.nodup above).filter _
    · exact hchildren p hp ▸ ht.nodup p
  grounded n := by
    refine acc_of_untouched (ht.grounded n) fun m _ p hp => ?_
    rw [hparent] at hp
    split at hp
    · exact absurd hp (by simp)
    · exact hp

/-- A detached node takes the place of another. -/
theorem swap (ht : t.Linked) {old new above : NodeId} (hold : t.parent old = some above)
    (hfree : t.parent new = none) (hroot : new ≠ root) (hnot : ¬ t.Within above new)
    (hsize : t'.size = t.size)
    (hparent : ∀ n, t'.parent n =
      if n = new then some above else if n = old then none else t.parent n)
    (habove : t'.children above = (t.children above).replace old new)
    (hchildren : ∀ n, n ≠ above → t'.children n = t.children n) : t'.Linked where
  nonempty := hsize ▸ ht.nonempty
  root_free := by
    rw [hparent, if_neg hroot.symm]
    split
    · rfl
    · exact ht.root_free
  mem_children := by
    intro p c
    have hne : old ≠ new := by
      intro heq
      subst heq
      exact absurd (hold.symm.trans hfree) (by simp)
    rw [hparent]
    by_cases hp : p = above
    · subst hp
      rw [habove, mem_replace_iff (ht.nodup p) (ht.mem_children.mpr hold), ht.mem_children]
      by_cases hc : c = new
      · simp [hc]
      · by_cases hco : c = old <;> simp [hc, hco, hne]
    · rw [hchildren p hp, ht.mem_children]
      by_cases hc : c = new
      · subst hc
        simp [hfree, Ne.symm hp]
      · by_cases hco : c = old
        · subst hco
          simp [hold, Ne.symm hp, hne]
        · simp [hc, hco]
  nodup p := by
    by_cases hp : p = above
    · rw [hp, habove]
      refine nodup_replace (ht.nodup above) fun hmem => ?_
      rw [ht.mem_children, hfree] at hmem
      exact absurd hmem (by simp)
    · exact hchildren p hp ▸ ht.nodup p
  grounded := by
    have hab : Acc (fun p c => t'.Up c p) above := by
      refine acc_of_untouched (ht.grounded above) fun m hm p hp => ?_
      have hne : m ≠ new := fun e => hnot (e ▸ hm)
      rw [hparent, if_neg hne] at hp
      split at hp
      · exact absurd hp (by simp)
      · exact hp
    refine acc_of_moved ht.grounded (· = new) (fun n hn p hp => ?_) ?_
    · rw [hparent, if_neg hn] at hp
      split at hp
      · exact absurd hp (by simp)
      · exact hp
    · intro n heq
      subst heq
      refine Acc.intro n fun p hp => ?_
      have hpa : t'.parent n = some p := hp
      rw [hparent, if_pos rfl] at hpa
      exact Option.some.inj hpa ▸ hab

/-- A node goes below a new one that takes its place, with a detached node beside it. -/
theorem enwrap (ht : t.Linked) {old styles above : NodeId} (hold : t.parent old = some above)
    (hfree : t.parent styles = none) (hlt : styles < t.size) (hroot : styles ≠ root)
    (hnot : ¬ t.Within above styles) (hsize : t'.size = t.size + 1)
    (hparent : ∀ n, t'.parent n =
      if n = t.size then some above
      else if n = old ∨ n = styles then some t.size else t.parent n)
    (hnew : t'.children t.size = [old, styles])
    (habove : t'.children above = (t.children above).replace old t.size)
    (hchildren : ∀ n, n ≠ above → n ≠ t.size → t'.children n = t.children n) : t'.Linked := by
  have holdlt : old < t.size := lt_size_of_parent hold
  have haboveLt : above < t.size := ht.parent_lt_size hold
  have hne : old ≠ styles := by
    intro heq
    subst heq
    exact absurd (hold.symm.trans hfree) (by simp)
  have holdroot : old ≠ root := by
    intro heq
    subst heq
    exact absurd (hold.symm.trans ht.root_free) (by simp)
  refine ⟨by omega, ?_, ?_, ?_, ?_⟩
  · have hsz : root ≠ t.size := by
      have := ht.nonempty
      exact Nat.ne_of_lt this
    rw [hparent, if_neg hsz, if_neg (by simp [holdroot.symm, hroot.symm])]
    exact ht.root_free
  · intro p c
    rw [hparent]
    by_cases hps : p = t.size
    · subst hps
      rw [hnew]
      by_cases hc : c = t.size
      · subst hc
        simp [Nat.ne_of_gt holdlt, Nat.ne_of_gt hlt, Nat.ne_of_lt haboveLt]
      · by_cases hco : c = old ∨ c = styles
        · simp [hc, hco]
        · have hout : t.parent c ≠ some t.size :=
            fun h => absurd (ht.parent_lt_size h) (Nat.lt_irrefl _)
          simp [hc, hout, not_or.mp hco]
    · by_cases hpa : p = above
      · subst hpa
        rw [habove, mem_replace_iff (ht.nodup p) (ht.mem_children.mpr hold), ht.mem_children]
        by_cases hc : c = t.size
        · simp [hc]
        · by_cases hco : c = old
          · simp [hco, Ne.symm hps, Nat.ne_of_lt holdlt]
          · by_cases hcs : c = styles
            · subst hcs
              simp [hc, Ne.symm hps, hfree]
            · simp [hc, hco, hcs]
      · rw [hchildren p hpa hps, ht.mem_children]
        by_cases hc : c = t.size
        · subst hc
          simp [parent_of_size_le, Ne.symm hpa]
        · by_cases hco : c = old
          · subst hco
            simp [hc, hold, Ne.symm hpa, Ne.symm hps]
          · by_cases hcs : c = styles
            · subst hcs
              simp [hc, Ne.symm hps, hfree]
            · simp [hc, hco, hcs]
  · intro p
    by_cases hps : p = t.size
    · rw [hps, hnew]
      simp [hne]
    · by_cases hpa : p = above
      · rw [hpa, habove]
        refine nodup_replace (ht.nodup above) fun hmem => ?_
        exact absurd (ht.lt_size_of_mem hmem) (Nat.lt_irrefl _)
      · exact hchildren p hpa hps ▸ ht.nodup p
  · -- The chain above the place is untouched, so it carries the new node and what is below it.
    have hab : Acc (fun p c => t'.Up c p) above := by
      refine acc_of_untouched (ht.grounded above) fun m hm p hp => ?_
      have hmold : m ≠ old := fun e => ht.not_within_of_parent hold (e ▸ hm)
      have hms : m ≠ styles := fun e => hnot (e ▸ hm)
      by_cases hmsz : m = t.size
      · rcases Relation.ReflTransGen.cases_tail hm with h | ⟨c, -, hc⟩
        · exact absurd (h.symm.trans hmsz) (Nat.ne_of_lt haboveLt)
        · exact absurd (hmsz ▸ ht.parent_lt_size hc) (Nat.lt_irrefl _)
      · rwa [hparent, if_neg hmsz, if_neg (by simp [hmold, hms])] at hp
    have hsz : Acc (fun p c => t'.Up c p) t.size := by
      refine Acc.intro _ fun p hp => ?_
      have hpa : t'.parent t.size = some p := hp
      rw [hparent, if_pos rfl] at hpa
      exact Option.some.inj hpa ▸ hab
    refine acc_of_moved ht.grounded (fun n => n = t.size ∨ n = old ∨ n = styles)
      (fun n hn p hp => ?_) ?_
    · rw [hparent, if_neg (fun e => hn (Or.inl e)), if_neg (fun e => hn (Or.inr e))] at hp
      exact hp
    · intro n hn
      by_cases hnsz : n = t.size
      · exact hnsz ▸ hsz
      · refine Acc.intro _ fun p hp => ?_
        have hpa : t'.parent n = some p := hp
        rw [hparent, if_neg hnsz, if_pos (hn.resolve_left hnsz)] at hpa
        exact Option.some.inj hpa ▸ hsz

end Linked

/-- What an edit at `above` leaves behind: `above` has kind `k`, parents are as
`up` says, and `above` and all nodes above it are marked.  Nothing else differs. -/
structure EditAt (t t' : Tree) (above : NodeId) (k : Kind NodeId)
    (up : NodeId → Option NodeId) : Prop where
  size : t'.size = t.size
  source : t'.source = t.source
  kind : ∀ n, t'.kind n = if n = above then k else t.kind n
  parent : ∀ n, t'.parent n = up n
  span : ∀ n, t'.span n = t.span n
  dirty : ∀ n, t'.dirty n =
    (t.dirty n || decide (n ∈ above :: t'.ancestors above ∧ n < t.size))

/-- The ancestors of a node in a number of steps depend on the parents alone. -/
theorem ancestorsWithin_congr {t t' : Tree} (h : ∀ n, t'.parent n = t.parent n) (d : Nat)
    (n : NodeId) : t'.ancestorsWithin d n = t.ancestorsWithin d n := by
  induction d generalizing n with
  | zero => rfl
  | succ d ih =>
    rw [ancestorsWithin, ancestorsWithin, h]
    cases t.parent n with
    | none => rfl
    | some p => exact congrArg (p :: ·) (ih p)

/-- The ancestors of a node depend on the parents and the size alone. -/
theorem ancestors_congr {t t' : Tree} (h : ∀ n, t'.parent n = t.parent n)
    (hsize : t'.size = t.size) (n : NodeId) : t'.ancestors n = t.ancestors n := by
  rw [ancestors, ancestors, hsize]
  exact ancestorsWithin_congr h ..

namespace EditAt

variable {t t' u : Tree} {above : NodeId} {k : Kind NodeId} {up : NodeId → Option NodeId}

/-- Every edit ends by marking. -/
theorem of_mark (hsize : u.size = t.size) (hsource : u.source = t.source)
    (hkind : ∀ n, u.kind n = if n = above then k else t.kind n)
    (hparent : ∀ n, u.parent n = up n) (hspan : ∀ n, u.span n = t.span n)
    (hdirty : ∀ n, u.dirty n = t.dirty n) : EditAt t (u.markDirty above) above k up where
  size := by rw [size_markDirty, hsize]
  source := by rw [source_markDirty, hsource]
  kind n := by rw [kind_markDirty, hkind]
  parent n := by rw [parent_markDirty, hparent]
  span n := by rw [span_markDirty, hspan]
  dirty n := by
    rw [dirty_markDirty, hdirty, hsize]
    rw [ancestors_congr (fun n => parent_markDirty u above n) (size_markDirty ..)]

/-- The node that was edited has the children it was given. -/
theorem children_self (h : EditAt t t' above k up) : t'.children above = k.children := by
  rw [children, h.kind, if_pos rfl]

/-- The nodes that were not edited keep their children. -/
theorem children_of_ne (h : EditAt t t' above k up) {n : NodeId} (hn : n ≠ above) :
    t'.children n = t.children n := by
  rw [children, h.kind, if_neg hn, children]

end EditAt

section Specs

variable {t : Tree}

/-- Removing cuts a node off and drops it from the node above. -/
theorem editAt_remove (ht : t.Linked) {id above : NodeId} (hid : t.parent id = some above) :
    EditAt t (t.remove id) above ((t.kind above).dropChild id)
      fun n => if n = id then none else t.parent n := by
  have hab := ht.parent_lt_size hid
  have hlt := lt_size_of_parent hid
  unfold remove
  rw [hid]
  refine EditAt.of_mark (by simp) rfl (fun n => ?_) (fun n => ?_) (by simp) (by simp)
  · by_cases hn : n = above
    · subst hn
      simp [kind_mapKind, hab]
    · simp [kind_mapKind, hn]
  · by_cases hn : n = id
    · subst hn
      simp [parent_setParent, hlt]
    · simp [parent_setParent, hn]

/-- Replacing cuts a node off and puts another in its place. -/
theorem editAt_replace (ht : t.Linked) {old new above : NodeId} (hold : t.parent old = some above)
    (hnew : new < t.size) :
    EditAt t (t.replace old new) above ((t.kind above).replaceChild old new)
      fun n => if n = new then some above else if n = old then none else t.parent n := by
  have hab := ht.parent_lt_size hold
  have hlt := lt_size_of_parent hold
  unfold replace replaceWith
  simp only [hold]
  refine EditAt.of_mark (by simp) rfl (fun n => ?_) (fun n => ?_) (by simp) (by simp)
  · by_cases hn : n = above
    · subst hn
      simp [kind_mapKind, hab]
    · simp [kind_mapKind, hn]
  · by_cases hn : n = new
    · subst hn
      simp [parent_setParent, hnew]
    · by_cases ho : n = old
      · subst ho
        simp [parent_setParent, hn, hlt]
      · simp [parent_setParent, hn, ho]

/-- Inserting puts a node behind another in the list both then stand in. -/
theorem insertAfter_eq_some {anchor new : NodeId} {t' : Tree}
    (h : t.insertAfter anchor new = some t') :
    ∃ above items, t.parent anchor = some above ∧ (t.kind above).items? = some items ∧
      anchor ∈ items ∧
      t' = ((t.mapKind above (·.setItems (insertBehind anchor new items))).setParent
        (some above) new).markDirty above := by
  obtain ⟨above, habove, h⟩ := Option.bind_eq_some_iff.mp h
  obtain ⟨items, hitems, h⟩ := Option.bind_eq_some_iff.mp h
  obtain ⟨_, hguard, h⟩ := Option.bind_eq_some_iff.mp h
  have hmem : items.contains anchor = true := by
    unfold guard at hguard
    split at hguard
    · assumption
    · cases hguard
  exact ⟨above, items, habove, hitems, List.contains_iff_mem.mp hmem, (Option.some.inj h).symm⟩

/-- Appending to a holder of items adds one, links it and marks the holder. -/
theorem append_eq_some {holder new : NodeId} {t' : Tree} (h : t.append holder new = some t') :
    ∃ items, (t.kind holder).items? = some items ∧
      t' = ((t.mapKind holder (·.setItems (items ++ [new]))).setParent
        (some holder) new).markDirty holder := by
  unfold append at h
  cases hitems : (t.kind holder).items? with
  | none => simp [hitems] at h
  | some items => exact ⟨items, rfl, by simpa [hitems, eq_comm] using h⟩

/-- Setting the list of a node and hanging a node under it. -/
theorem editAt_setItems {holder new : NodeId} (hholder : holder < t.size) (hnew : new < t.size)
    (items : List NodeId) :
    EditAt t (((t.mapKind holder (·.setItems items)).setParent (some holder) new).markDirty holder)
      holder ((t.kind holder).setItems items)
      fun n => if n = new then some holder else t.parent n := by
  refine EditAt.of_mark (by simp) rfl (fun n => ?_) (fun n => ?_) (by simp) (by simp)
  · by_cases hn : n = holder
    · subst hn
      simp [kind_mapKind, hholder]
    · simp [kind_mapKind, hn]
  · by_cases hn : n = new
    · subst hn
      simp [parent_setParent, hnew]
    · simp [parent_setParent, hn]

/-- Once the old node is taken out and put into an array with a new one, wrapping is one edit. -/
theorem editAt_wrapped (ht : t.Linked) {old styles above : NodeId}
    (hold : t.parent old = some above) (hstyles : styles < t.size) :
    EditAt (alloc (.array [old, styles]) none (t.setParent none old)).2
      (t.replaceWith old fun t => t.alloc (.array [old, styles]) none).2 above
      ((t.kind above).replaceChild old t.size)
      fun n => if n = t.size then some above
        else if n = old ∨ n = styles then some t.size else t.parent n := by
  have hab := ht.parent_lt_size hold
  have hlt := lt_size_of_parent hold
  unfold replaceWith
  simp only [hold]
  refine EditAt.of_mark (by simp) rfl (fun n => ?_) (fun n => ?_) (by simp) (by simp)
  · by_cases hn : n = above
    · subst hn
      simp [kind_mapKind, kind_alloc, size_alloc, Nat.ne_of_lt hab, alloc_fst,
        Nat.lt_succ_of_lt hab]
    · simp [kind_mapKind, hn]
  · by_cases hn : n = t.size
    · subst hn
      simp [parent_setParent, size_alloc, alloc_fst]
    · by_cases ho : n = old ∨ n = styles
      · have hnlt : n < t.size := by
          rcases ho with rfl | rfl
          · exact hlt
          · exact hstyles
        simp [parent_setParent, parent_alloc, alloc_fst, hn, ho, hnlt, Kind.children]
      · simp [parent_setParent, parent_alloc, alloc_fst, hn, not_or.mp ho, Kind.children]

/-- Wrapping adds an array with the old node and a new one, and puts it where
the old node was. -/
theorem editAt_wrap (ht : t.Linked) {old styles above : NodeId}
    (hold : t.parent old = some above) (hstyles : styles < t.size) :
    let wrapped := (t.replaceWith old fun t => t.alloc (.array [old, styles]) none).2
    wrapped.size = t.size + 1 ∧ wrapped.source = t.source ∧
      (∀ n, wrapped.kind n = if n = t.size then .array [old, styles]
        else if n = above then (t.kind above).replaceChild old t.size else t.kind n) ∧
      (∀ n, wrapped.parent n = if n = t.size then some above
        else if n = old ∨ n = styles then some t.size else t.parent n) ∧
      (∀ n, wrapped.span n = if n = t.size then none else t.span n) ∧
      (∀ n, wrapped.dirty n = ((if n = t.size then true else t.dirty n) ||
        decide (n ∈ above :: wrapped.ancestors above ∧ n < t.size + 1))) := by
  have hab := ht.parent_lt_size hold
  have hedit := editAt_wrapped ht hold hstyles
  refine ⟨?_, ?_, fun n => ?_, hedit.parent, fun n => ?_, fun n => ?_⟩
  · rw [hedit.size, size_alloc, size_setParent]
  · rw [hedit.source, source_alloc, source_setParent]
  · rw [hedit.kind, kind_alloc, size_setParent, kind_setParent]
    by_cases hn : n = above
    · simp [hn, Nat.ne_of_lt hab]
    · simp [hn]
  · rw [hedit.span, span_alloc, size_setParent, span_setParent]
  · rw [hedit.dirty, dirty_alloc, size_setParent, dirty_setParent, size_alloc, size_setParent]
    rfl

end Specs

section Linking

variable {t : Tree}

/-- A node is added above detached ones. -/
theorem linked_alloc (ht : t.Linked) {kind : Kind NodeId} (span : Option Span)
    (hfree : ∀ c ∈ kind.children, t.parent c = none ∧ c < t.size ∧ c ≠ root)
    (hnodup : kind.children.Nodup) : (alloc kind span t).2.Linked := by
  have hparent (n : NodeId) : (alloc kind span t).2.parent n =
      if n ∈ kind.children then some t.size else t.parent n := by
    rw [parent_alloc]
    by_cases hn : n ∈ kind.children
    · rw [if_pos ⟨hn, (hfree n hn).2.1⟩, if_pos hn]
    · rw [if_neg (fun h => hn h.1), if_neg hn]
  have hsize : t.size ∉ kind.children := fun h => absurd (hfree _ h).2.1 (Nat.lt_irrefl _)
  have hchildren (n : NodeId) : (alloc kind span t).2.children n =
      if n = t.size then kind.children else t.children n := by
    rw [children, kind_alloc]
    split <;> rfl
  refine ⟨by rw [size_alloc]; omega, ?_, ?_, ?_, ?_⟩
  · rw [hparent, if_neg fun h => (hfree _ h).2.2 rfl]
    exact ht.root_free
  · intro p c
    rw [hparent, hchildren]
    by_cases hp : p = t.size
    · subst hp
      by_cases hc : c ∈ kind.children
      · simp [hc]
      · have hout : t.parent c ≠ some t.size :=
          fun h => absurd (ht.parent_lt_size h) (Nat.lt_irrefl _)
        simp [hc, hout]
    · rw [if_neg hp, ht.mem_children]
      by_cases hc : c ∈ kind.children
      · simp [hc, (hfree c hc).1, Ne.symm hp]
      · simp [hc]
  · intro p
    rw [hchildren]
    split
    · exact hnodup
    · exact ht.nodup p
  · refine acc_of_moved ht.grounded (· ∈ kind.children) (fun n hn p hp => ?_) fun n hn => ?_
    · rwa [hparent, if_neg hn] at hp
    · refine Acc.intro _ fun p hp => ?_
      have hp' : (alloc kind span t).2.parent n = some p := hp
      rw [hparent, if_pos hn] at hp'
      obtain rfl := Option.some.inj hp'
      refine Acc.intro _ fun q hq => ?_
      have hq' : (alloc kind span t).2.parent t.size = some q := hq
      rw [hparent, if_neg hsize, parent_of_size_le (Nat.le_refl _)] at hq'
      exact absurd hq' (by simp)

/-- Removing a node from a parent that lists its items keeps the links in order. -/
theorem linked_remove (ht : t.Linked) {id above : NodeId} (hid : t.parent id = some above)
    (hitems : (t.kind above).items? = some (t.children above)) : (t.remove id).Linked := by
  have hedit := editAt_remove ht hid
  refine ht.detach hid hedit.size hedit.parent ?_ fun n hn => hedit.children_of_ne hn
  rw [hedit.children_self, Kind.children_dropChild hitems]
  rfl

/-- Replacing a node by a detached one that is not above it keeps the links in order. -/
theorem linked_replace (ht : t.Linked) {old new above : NodeId} (hold : t.parent old = some above)
    (hnew : new < t.size) (hfree : t.parent new = none) (hroot : new ≠ root)
    (hnot : ¬ t.Within above new) : (t.replace old new).Linked := by
  have hedit := editAt_replace ht hold hnew
  refine ht.swap hold hfree hroot hnot hedit.size hedit.parent ?_ fun n hn =>
    hedit.children_of_ne hn
  rw [hedit.children_self, Kind.children_replaceChild]
  rfl

/-- Putting a node and a detached one in an array keeps the links in order. -/
theorem linked_wrap (ht : t.Linked) {old styles above : NodeId} (hold : t.parent old = some above)
    (hfree : t.parent styles = none) (hlt : styles < t.size) (hroot : styles ≠ root)
    (hnot : ¬ t.Within above styles) :
    (t.replaceWith old fun t => t.alloc (.array [old, styles]) none).2.Linked := by
  obtain ⟨hsize, -, hkind, hparent, -, -⟩ := editAt_wrap ht hold hlt
  have hab : above ≠ t.size := Nat.ne_of_lt (ht.parent_lt_size hold)
  refine ht.enwrap hold hfree hlt hroot hnot hsize hparent ?_ ?_ fun n hn hns => ?_
  · rw [children, hkind, if_pos rfl]
    rfl
  · rw [children, hkind, if_neg hab, if_pos rfl, Kind.children_replaceChild]
    rfl
  · rw [children, hkind, if_neg hns, if_neg hn]
    rfl

/-- Putting a detached node behind an anchor that is not below it keeps the links in order. -/
theorem linked_insertAfter (ht : t.Linked) {anchor new : NodeId} {t' : Tree}
    (h : t.insertAfter anchor new = some t') (hnew : new < t.size) (hfree : t.parent new = none)
    (hroot : new ≠ root) (hnot : ∀ above, t.parent anchor = some above → ¬ t.Within above new) :
    t'.Linked := by
  obtain ⟨above, items, habove, hitems, hmem, rfl⟩ := insertAfter_eq_some h
  obtain ⟨lead, hlead, hset⟩ := Kind.exists_lead hitems
  have hedit := editAt_setItems (ht.parent_lt_size habove) hnew (insertBehind anchor new items)
  have hout : new ∉ t.children above := by
    rw [ht.mem_children, hfree]
    simp
  have hnodup := ht.nodup above
  obtain ⟨xs, ys, rfl⟩ := List.append_of_mem hmem
  rw [children, hlead] at hnodup hout
  have hxs : anchor ∉ xs := by grind
  have hself := hedit.children_self.trans (hset _)
  have hins := insertBehind_append hxs new ys
  refine ht.attach hfree hroot (hnot above habove) hedit.size hedit.parent (fun c => ?_) ?_
    fun n hn => hedit.children_of_ne hn
  · rw [hself, hins, children, hlead]
    grind
  · rw [hself, hins]
    grind

/-- Appending a detached node to a holder that is not below it keeps the links in order. -/
theorem linked_append (ht : t.Linked) {holder new : NodeId} {t' : Tree}
    (h : t.append holder new = some t') (hholder : holder < t.size) (hnew : new < t.size)
    (hfree : t.parent new = none) (hroot : new ≠ root) (hnot : ¬ t.Within holder new) :
    t'.Linked := by
  obtain ⟨items, hitems, rfl⟩ := append_eq_some h
  obtain ⟨lead, hlead, hset⟩ := Kind.exists_lead hitems
  have hedit := editAt_setItems hholder hnew (items ++ [new])
  have hout : new ∉ t.children holder := by
    rw [ht.mem_children, hfree]
    simp
  have hnodup := ht.nodup holder
  have hself := hedit.children_self.trans (hset _)
  rw [children, hlead] at hnodup hout
  refine ht.attach hfree hroot hnot hedit.size hedit.parent (fun c => ?_) ?_
    fun n hn => hedit.children_of_ne hn
  · rw [hself, children, hlead]
    grind
  · rw [hself]
    grind

end Linking

end Tree

end JsxStyle
