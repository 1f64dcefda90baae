import JsxStyle.Proofs.Seams

/-!
# Access

A definition of this library answers for every offset and every identifier; a program
that indexes and cuts texts stops where an offset is out of range or lies inside
a character.  A *checked* run does what a definition does and looks each time
whether the access is allowed: there is a byte at the offset, the range is the right
way round and its ends lie between characters, there is a node under the identifier,
a step that has to lead forward does.  If it is not, the run ends in a fault, and that
is something else than ending with an error of the program.

* `Checked.of`: the run that ends as a definition does, so never in a fault;
* `Breaks`: what is needed to know of a text, and is true of its parts as well;
* `Checked.cut_eq`, `Checked.run_eq`: accesses that are allowed.
-/

namespace JsxStyle

/-- An access that is not allowed. -/
inductive Fault where
  /-- There is no byte at the offset. -/
  | noByte (offset : Nat)
  /-- The range is the wrong way round, or an end of it lies inside a character or outside the
  text. -/
  | badRange (lo hi : Nat)
  /-- There is no node under the identifier. -/
  | noNode (id : Nat)
  /-- There is nothing at the index of a list. -/
  | noItem (index : Nat)
  /-- A step leads from one offset to another that does not lie behind it. -/
  | stuck (lo hi : Nat)
  /-- A walk comes to the node after more steps than there are nodes. -/
  | endless (id : Nat)
deriving DecidableEq, Repr

/-- Why a checked run has ended before its end: for a fault, or with an error of the program. -/
inductive Halt (ε : Type) where
  | fault (f : Fault)
  | failure (e : ε)
deriving DecidableEq, Repr

/-- A run that checks its accesses. -/
abbrev Checked (ε : Type) := Except (Halt ε)

namespace Text

/-- A text in which a character begins behind every ASCII byte. -/
def Breaks (t : Text) : Prop :=
  ∀ (i : Nat) (b c : Byte), t[i]? = some b → b.isAscii = true → t[i + 1]? = some c →
    c.isContinuation = false

variable {t u : Text} {i : Nat} {b : Byte}

/-- In a well-formed text a character begins behind every ASCII byte. -/
theorem breaks_of_isUtf8 (h : isUtf8 t = true) : t.Breaks :=
  fun _ _ _ hb hascii hc => not_isContinuation_succ h hb hascii hc

/-- A part of such a text is such a text. -/
theorem Breaks.of_isInfix (h : t.Breaks) (hu : u <:+: t) : u.Breaks := by
  obtain ⟨before, after, rfl⟩ := hu
  intro i b c hb hascii hc
  have hin {j : Nat} {d : Byte} (hd : u[j]? = some d) :
      (before ++ u ++ after)[before.length + j]? = some d := by
    have hlt : j < u.length := (List.getElem?_eq_some_iff.mp hd).1
    rw [List.append_assoc, List.getElem?_append_right (by omega), Nat.add_sub_cancel_left,
      List.getElem?_append_left hlt]
    exact hd
  exact h (before.length + i) b c (hin hb) hascii (hin hc)

theorem isBoundary_zero (t : Text) : t.isBoundary 0 = true :=
  rfl

theorem isBoundary_length (t : Text) : t.isBoundary t.length = true := by
  simp [isBoundary]

/-- An ASCII byte begins between characters. -/
theorem isBoundary_of_isAscii (hb : t[i]? = some b) (hascii : b.isAscii = true) :
    t.isBoundary i = true := by
  simp [isBoundary, hb, Byte.not_isContinuation_of_isAscii hascii]

/-- An ASCII byte ends between characters. -/
theorem Breaks.isBoundary_succ (h : t.Breaks) (hb : t[i]? = some b) (hascii : b.isAscii = true) :
    t.isBoundary (i + 1) = true := by
  rcases Nat.eq_or_lt_of_le (Nat.succ_le_of_lt (List.getElem?_eq_some_iff.mp hb).1) with hend | hin
  · rw [Nat.succ_eq_add_one] at hend
    rw [hend]
    exact isBoundary_length t
  · have hc : t[i + 1]? = some t[i + 1] := List.getElem?_eq_getElem hin
    simp [isBoundary, hc, h i b _ hb hascii hc]

/-- No boundary lies outside the text. -/
theorem le_length_of_isBoundary (h : t.isBoundary i = true) : i ≤ t.length := by
  simp only [isBoundary, Bool.or_eq_true, beq_iff_eq] at h
  rcases h with (rfl | rfl) | h
  · exact Nat.zero_le _
  · exact Nat.le_refl _
  · cases hb : t[i]? with
    | none => simp [hb] at h
    | some b => exact Nat.le_of_lt (List.getElem?_eq_some_iff.mp hb).1

/-- Behind a run of ASCII bytes that begins between characters a character begins. -/
theorem Breaks.isBoundary_add (h : t.Breaks) (hi : t.isBoundary i = true) {u : Text}
    (hu : u <+: t.drop i) (hascii : ∀ b ∈ u, b.isAscii = true) :
    t.isBoundary (i + u.length) = true := by
  rcases List.eq_nil_or_concat u with rfl | ⟨init, last, rfl⟩
  · exact hi
  · obtain ⟨rest, hrest⟩ := hu
    have hlast : t[i + init.length]? = some last := by
      rw [← List.getElem?_drop, ← hrest]
      simp
    rw [List.length_concat, ← Nat.add_assoc]
    exact h.isBoundary_succ hlast (hascii last (by simp))

/-- What stands at an offset is the slice of its length there. -/
theorem slice_of_isPrefix {u : Text} (h : u <+: t.drop i) : t.slice i (i + u.length) = u := by
  rw [slice, Nat.add_sub_cancel_left]
  exact (List.prefix_iff_eq_take.mp h).symm

/-- A slice is a part of the text. -/
theorem slice_isInfix (t : Text) (lo hi : Nat) : t.slice lo hi <:+: t :=
  (List.take_prefix ..).isInfix.trans (List.drop_suffix ..).isInfix

end Text

namespace Checked

variable {ε α β : Type}

/-- The run that ends as `r` does. -/
def of (r : Except ε α) : Checked ε α :=
  r.mapError .failure

@[simp] theorem of_pure (a : α) : of (pure a : Except ε α) = pure a :=
  rfl

@[simp] theorem of_ok (a : α) : of (.ok a : Except ε α) = pure a :=
  rfl

@[simp] theorem of_error (e : ε) : of (.error e : Except ε α) = .error (.failure e) :=
  rfl

/-- A function of the answer may be applied before or after. -/
theorem of_map (f : α → β) (x : Except ε α) : of (f <$> x) = f <$> of x := by
  cases x <;> rfl

/-- Runs are put together step by step; a step is looked at only for what comes of the one
before. -/
theorem bind_eq {x : Except ε α} {x' : Checked ε α} {f : α → Except ε β} {f' : α → Checked ε β}
    (hx : x' = of x) (hf : ∀ a, x = .ok a → f' a = of (f a)) : x' >>= f' = of (x >>= f) := by
  subst hx
  cases x with
  | error e => rfl
  | ok a => exact hf a rfl

/-- The byte at an offset. -/
def byteAt (t : Text) (i : Nat) : Checked ε Byte :=
  match t[i]? with
  | some b => pure b
  | none => .error (.fault (.noByte i))

/-- The bytes of a range. -/
def cut (t : Text) (lo hi : Nat) : Checked ε Text :=
  if lo ≤ hi ∧ t.isBoundary lo = true ∧ t.isBoundary hi = true then pure (t.slice lo hi)
  else .error (.fault (.badRange lo hi))

/-- The byte at an offset that is first compared with a limit. -/
def peek (t : Text) (i limit : Nat) : Checked ε (Option Byte) :=
  if i < limit then some <$> byteAt t i else pure none

/-- That `hi` lies behind `lo`. -/
def ahead (lo hi : Nat) : Checked ε (PLift (lo < hi)) :=
  if h : lo < hi then pure ⟨h⟩ else .error (.fault (.stuck lo hi))

/-- How many bytes from `i` on are of a class, with `limit` as the limit. -/
def run (p : Byte → Bool) (t : Text) (i limit : Nat) : Checked ε Nat :=
  if i < limit then do
    let b ← byteAt t i
    if p b then return (← run p t (i + 1) limit) + 1 else return 0
  else return 0
termination_by limit - i

variable {t : Text} {i lo hi limit : Nat} {b : Byte}

/-- Looking at a byte that is there finds it. -/
theorem byteAt_eq (h : t[i]? = some b) : (byteAt t i : Checked ε Byte) = pure b := by
  rw [byteAt, h]

/-- Cutting between boundaries gives the slice. -/
theorem cut_eq (hle : lo ≤ hi) (hlo : t.isBoundary lo = true) (hhi : t.isBoundary hi = true) :
    (cut t lo hi : Checked ε Text) = pure (t.slice lo hi) :=
  if_pos ⟨hle, hlo, hhi⟩

/-- Peeking below the limit finds the byte that is there. -/
theorem peek_eq_some (h : t[i]? = some b) (hi : i < limit) :
    (peek t i limit : Checked ε (Option Byte)) = pure (some b) := by
  rw [peek, if_pos hi, byteAt_eq h]
  rfl

/-- Peeking at the limit or behind it finds nothing. -/
theorem peek_eq_none (h : limit ≤ i) : (peek t i limit : Checked ε (Option Byte)) = pure none :=
  if_neg (Nat.not_lt.mpr h)

/-- A limit within the text makes an access safe. -/
theorem peek_eq (h : limit ≤ t.length) :
    (peek t i limit : Checked ε (Option Byte)) = pure (t.slice i limit).head? := by
  rcases Nat.lt_or_ge i limit with hlt | hge
  · have hin := Nat.lt_of_lt_of_le hlt h
    have hb : t[i]? = some t[i] := List.getElem?_eq_getElem hin
    rw [peek_eq_some hb hlt, Text.slice, List.head?_take, if_neg (by omega), List.head?_drop, hb]
  · rw [peek_eq_none hge, Text.slice, Nat.sub_eq_zero_of_le hge, List.take_zero]
    rfl

/-- A step ahead may be taken. -/
theorem ahead_eq (h : lo < hi) : (ahead lo hi : Checked ε (PLift (lo < hi))) = pure ⟨h⟩ :=
  dif_pos h

/-- A limit within the text makes a run of accesses safe. -/
theorem run_eq {i : Nat} (p : Byte → Bool) (h : limit ≤ t.length) :
    (run p t i limit : Checked ε Nat) = pure ((t.slice i limit).takeWhile p).length := by
  rw [run]
  split
  case isTrue hlt =>
    have hin := Nat.lt_of_lt_of_le hlt h
    have hb : t[i]? = some t[i] := List.getElem?_eq_getElem hin
    rw [byteAt_eq hb, pure_bind, Text.slice, Scan.drop_eq_cons_of_getElem? hb,
      show limit - i = limit - (i + 1) + 1 by omega, List.take_succ_cons]
    split
    case isTrue hp =>
      rw [run_eq p h, List.takeWhile_cons_of_pos hp]
      rfl
    case isFalse hp =>
      rw [List.takeWhile_cons_of_neg hp]
      rfl
  case isFalse hge =>
    rw [Text.slice, Nat.sub_eq_zero_of_le (Nat.le_of_not_lt hge)]
    rfl
termination_by limit - i

/-- The whole rest of a text as the range of a run. -/
theorem run_length_eq (p : Byte → Bool) (t : Text) (i : Nat) :
    (run p t i t.length : Checked ε Nat) = pure ((t.drop i).takeWhile p).length := by
  rw [run_eq p (Nat.le_refl _), Text.slice, List.take_of_length_le (by simp)]

/-! ## Runs over lists -/

section

variable {l : List α}

/-- A checked map over a list is the map where each item passes. -/
theorem mapM_eq {f' : α → Checked ε β} {f : α → β} (h : ∀ a ∈ l, f' a = pure (f a)) :
    l.mapM f' = pure (l.map f) := by
  induction l with
  | nil => rfl
  | cons a rest ih =>
    obtain ⟨ha, hrest⟩ := List.forall_mem_cons.mp h
    rw [List.mapM_cons, ha, pure_bind, ih hrest]
    rfl

/-- A checked search for an item is the search where each item passes. -/
theorem anyM_eq {p' : α → Checked ε Bool} {p : α → Bool} (h : ∀ a ∈ l, p' a = pure (p a)) :
    l.anyM p' = pure (l.any p) := by
  induction l with
  | nil => rfl
  | cons a rest ih =>
    obtain ⟨ha, hrest⟩ := List.forall_mem_cons.mp h
    rw [List.anyM, ha, pure_bind, List.any_cons]
    cases p a with
    | true => rfl
    | false => exact ih hrest

/-- A checked filter is the filter where each item passes. -/
theorem filterM_eq {p' : α → Checked ε Bool} {p : α → Bool} (h : ∀ a ∈ l, p' a = pure (p a)) :
    l.filterM p' = pure (l.filter p) := by
  have haux (acc : List α) : l.filterAuxM p' acc = pure ((l.filter p).reverse ++ acc) := by
    induction l generalizing acc with
    | nil => rfl
    | cons a rest ih =>
      obtain ⟨ha, hrest⟩ := List.forall_mem_cons.mp h
      rw [List.filterAuxM, ha, pure_bind, ih hrest, List.filter_cons]
      cases p a <;> simp
  rw [List.filterM, haux, pure_bind, List.append_nil, List.reverse_reverse]

/-- A checked search for an answer is the search where each item passes. -/
theorem findSomeM?_eq {f' : α → Checked ε (Option β)} {f : α → Option β}
    (h : ∀ a ∈ l, f' a = pure (f a)) : l.findSomeM? f' = pure (l.findSome? f) := by
  induction l with
  | nil => rfl
  | cons a rest ih =>
    obtain ⟨ha, hrest⟩ := List.forall_mem_cons.mp h
    rw [List.findSomeM?, ha, pure_bind, List.findSome?_cons]
    cases f a with
    | some b => rfl
    | none => exact ih hrest

end

end Checked

end JsxStyle
