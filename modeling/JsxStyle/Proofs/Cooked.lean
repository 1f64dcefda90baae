import JsxStyle.Proofs.Passing
import Mathlib.Algebra.Group.Nat.Defs

/-!
# What escapes stand for

The language gives every escape a value: one of seven control characters, the
character with a code point, nothing where a line is continued, and otherwise what
stands behind the backslash.  Line breaks of two kinds count as line feeds.  `cook`
follows these rules, and fails where they give no text: where digits are missing and
where half a surrogate pair stands alone.

The program's reading knows only some of the rules, and takes what is behind the
backslash for what is meant everywhere else.  What it takes too literally never comes
out shorter, so one difference cannot make up for another: both readings agree on a
text if and only if every escape in it is one that the program knows.

* `unescape_escape_ahead`: one escape, read in both ways;
* `cook_eq_unescape_iff`: where the two readings agree.
-/

namespace JsxStyle

namespace Text

open Ascii

/-! ### The rules -/

/-- The value of a hexadecimal digit. -/
def hexDigit? (b : Byte) : Option Nat :=
  if 0x30 ≤ b ∧ b ≤ 0x39 then some (b.toNat - 0x30)
  else if 0x41 ≤ b ∧ b ≤ 0x46 then some (b.toNat - 0x41 + 10)
  else if 0x61 ≤ b ∧ b ≤ 0x66 then some (b.toNat - 0x61 + 10)
  else none

/-- The value of a text of hexadecimal digits. -/
def hexValue? (digits : Text) : Option Nat :=
  digits.foldlM (fun n b => (hexDigit? b).map (16 * n + ·)) 0

/-- The value of the hexadecimal digits at the front of a text, which has `n` of them. -/
def hexAhead? (n : Nat) (t : Text) : Option Nat :=
  if n ≤ t.length then hexValue? (t.take n) else none

/-- The character with a code point, which surrogates are not. -/
def codePoint? (n : Nat) : Option Text :=
  if n.isValidChar then some (ofChar (Char.ofNat n)) else none

/-- The code unit of an escape `\uHHHH`, if a text begins with one. -/
def unitEscape? (t : Text) : Option Nat :=
  if [backslash, 0x75].isPrefixOf t then hexAhead? 4 (t.drop 2) else none

/-- The character of two code units, if they are the halves of one. -/
def surrogatePair? (high low : Nat) : Option Text :=
  if 0xD800 ≤ high ∧ high ≤ 0xDBFF ∧ 0xDC00 ≤ low ∧ low ≤ 0xDFFF then
    codePoint? (0x10000 + (high - 0xD800) * 0x400 + (low - 0xDC00))
  else none

/-- The value of what stands behind `\u`, and how many bytes of it that takes. -/
def unicodeEscape? (t : Text) : Option (Text × Nat) :=
  if t.head? = some openBrace then
    let digits := (t.drop 1).takeWhile fun b => (hexDigit? b).isSome
    if digits ≠ [] ∧ (t.drop (digits.length + 1)).head? = some closeBrace then
      ((hexValue? digits).bind codePoint?).map (·, digits.length + 2)
    else none
  else do
    let unit ← hexAhead? 4 t
    match codePoint? unit with
    | some value => some (value, 4)
    | none => ((unitEscape? (t.drop 4)).bind (surrogatePair? unit)).map (·, 10)

/-- The control characters that have a letter or digit of their own. -/
def controlEscapes : List (Byte × Byte) :=
  [(0x6E, newline), (0x74, tab), (0x72, carriageReturn), (0x62, 0x08), (0x76, 0x0B), (0x66, 0x0C),
    (0x30, 0x00)]

/-- Whether a text begins with a line separator or a paragraph separator. -/
def startsLine (t : Text) : Bool :=
  [0xE2, 0x80, 0xA8].isPrefixOf t || [0xE2, 0x80, 0xA9].isPrefixOf t

/-- The value of what stands behind a backslash, and how many bytes of it that takes. -/
def escapeAhead? : Text → Option (Text × Nat)
  | [] => none
  | c :: rest =>
    if c = 0x78 then ((hexAhead? 2 rest).bind codePoint?).map (·, 3)
    else if c = 0x75 then (unicodeEscape? rest).map fun (value, n) => (value, n + 1)
    else if c = carriageReturn then some ([], if rest.head? = some newline then 2 else 1)
    else if c = newline then some ([], 1)
    else if startsLine (c :: rest) then some ([], 3)
    else some ([(controlEscapes.lookup c).getD c], 1)

/-- The value of a text with escapes, if it has one. -/
def cook (t : Text) : Option Text :=
  match t with
  | [] => some []
  | b :: rest =>
    if b = backslash then
      match escapeAhead? rest with
      | none => none
      | some (value, n) => (cook (rest.drop n)).map (value ++ ·)
    else if b = carriageReturn then
      (cook (rest.drop (if rest.head? = some newline then 1 else 0))).map (newline :: ·)
    else (cook rest).map (b :: ·)
termination_by t.length
decreasing_by all_goals (simp only [List.length_drop, List.length_cons]; omega)

/-- Whether the program knows the escape of `c` in front of `rest`. -/
def isKnownEscape (c : Byte) (rest : Text) : Bool :=
  !([0x62, 0x66, 0x75, 0x76, 0x78, carriageReturn].contains c) && !startsLine (c :: rest)

/-- Whether a text has no carriage return and no escape that the program does not know. -/
def isPlain : Text → Bool
  | [] => true
  | b :: rest =>
    if b = backslash then
      match rest with
      | [] => false
      | c :: rest' => isKnownEscape c rest' && isPlain rest'
    else b != carriageReturn && isPlain rest

/-! ### Both readings of one escape -/

/-- No character has more than four bytes. -/
theorem length_ofChar_le (c : Char) : (ofChar c).length ≤ 4 := by
  rw [ofChar, String.length_utf8EncodeChar]
  exact Char.utf8Size_le_four c

/-- A code point has four bytes at most, and two below 0x800. -/
theorem length_le_of_codePoint {n : Nat} {value : Text} (h : codePoint? n = some value) :
    value.length ≤ 4 ∧ (n < 0x800 → value.length ≤ 2) := by
  unfold codePoint? at h
  split at h
  case isTrue hn =>
    obtain rfl := Option.some.inj h
    refine ⟨length_ofChar_le _, fun hlt => ?_⟩
    have hval : (Char.ofNat n).val.toNat = n := by
      rw [Char.ofNat, dif_pos hn]
      rfl
    have hle : (Char.ofNat n).val ≤ 0x7FF := UInt32.le_iff_toNat_le.mpr (by rw [hval]; simp; omega)
    rw [ofChar, String.length_utf8EncodeChar, Char.utf8Size]
    split
    · decide
    · exact Nat.le_of_eq (if_pos hle)
  case isFalse => exact absurd h (by simp)

/-- A hexadecimal digit is worth less than sixteen and is no backslash. -/
theorem hexDigit?_lt {b : Byte} {d : Nat} (h : hexDigit? b = some d) : d < 16 ∧ b ≠ backslash := by
  have hall : ∀ b : Byte, ∀ d ∈ hexDigit? b, d < 16 ∧ b ≠ backslash :=
    Scan.forall_byte (by decide +kernel)
  exact hall b d h

/-- Reading hexadecimal digits on from a value stays below the powers of sixteen. -/
theorem hexFold_lt {digits : Text} {m n : Nat}
    (h : digits.foldlM (fun n b => (hexDigit? b).map (16 * n + ·)) m = some n) :
    n < (m + 1) * 16 ^ digits.length ∧ backslash ∉ digits := by
  induction digits generalizing m with
  | nil =>
    obtain rfl := Option.some.inj h
    simp
  | cons b rest ih =>
    rw [List.foldlM_cons, Option.bind_eq_bind, Option.bind_eq_some_iff] at h
    obtain ⟨next, hnext, h⟩ := h
    obtain ⟨d, hd, rfl⟩ := Option.map_eq_some_iff.mp hnext
    obtain ⟨hlt, hb⟩ := hexDigit?_lt hd
    obtain ⟨hrest, hplain⟩ := ih h
    refine ⟨Nat.lt_of_lt_of_le hrest ?_, List.not_mem_cons_of_ne_of_not_mem hb.symm hplain⟩
    rw [List.length_cons, Nat.pow_succ', ← Nat.mul_assoc]
    exact Nat.mul_le_mul_right _ (by omega)

/-- Hexadecimal digits are worth less than a power of sixteen. -/
theorem hexValue?_lt {digits : Text} {n : Nat} (h : hexValue? digits = some n) :
    n < 16 ^ digits.length ∧ backslash ∉ digits := by
  simpa using hexFold_lt h

/-- A text without backslashes in front is left alone by unescaping. -/
theorem unescape_append {p : Text} (hp : backslash ∉ p) (q : Text) :
    unescape (p ++ q) = p ++ unescape q := by
  induction p with
  | nil => rfl
  | cons b rest ih =>
    rw [List.mem_cons, not_or] at hp
    rw [List.cons_append, unescape_cons (Ne.symm hp.1), ih hp.2]
    rfl

/-- Digits are read as they stand. -/
theorem unescape_hexAhead {k n : Nat} {t : Text} (h : hexAhead? k t = some n) :
    unescape t = t.take k ++ unescape (t.drop k) ∧ (t.take k).length = k ∧ n < 16 ^ k := by
  unfold hexAhead? at h
  split at h
  case isTrue hk =>
    obtain ⟨hlt, hplain⟩ := hexValue?_lt h
    have hlength : (t.take k).length = k := List.length_take_of_le hk
    rw [hlength] at hlt
    refine ⟨?_, hlength, hlt⟩
    rw [← unescape_append hplain, List.take_append_drop]
  case isFalse => exact absurd h (by simp)

/-- A `\uHHHH` escape loses its backslash alone when it is unescaped. -/
theorem unescape_unitEscape {t : Text} {unit : Nat} (h : unitEscape? t = some unit) :
    unescape t = 0x75 :: ((t.drop 2).take 4 ++ unescape (t.drop 6)) := by
  unfold unitEscape? at h
  split at h
  case isTrue hlead =>
    obtain ⟨rest, rfl⟩ := List.isPrefixOf_iff_prefix.mp hlead
    obtain ⟨hread, -, -⟩ := unescape_hexAhead h
    show unescape (backslash :: 0x75 :: rest) = _
    rw [unescape, if_pos rfl]
    exact congrArg (0x75 :: ·) hread
  case isFalse => exact absurd h (by simp)

/-- A surrogate pair has four bytes at most. -/
theorem length_le_of_surrogatePair {high low : Nat} {value : Text}
    (h : surrogatePair? high low = some value) : value.length ≤ 4 := by
  unfold surrogatePair? at h
  split at h
  · exact (length_le_of_codePoint h).1
  · exact absurd h (by simp)

/-- Digits in braces are taken as they stand, and so are the braces. -/
theorem unescape_braced {rest digits value : Text} {unit : Nat} (hdigits : digits <+: rest)
    (hne : digits ≠ []) (hclose : (rest.drop digits.length).head? = some closeBrace)
    (hunit : hexValue? digits = some unit) (hpoint : codePoint? unit = some value) :
    ∃ literal, unescape (openBrace :: rest) = literal ++ unescape (rest.drop (digits.length + 1)) ∧
      value.length ≤ literal.length := by
  obtain ⟨hlt, hplain⟩ := hexValue?_lt hunit
  obtain ⟨more, rfl⟩ := hdigits
  rw [List.drop_left] at hclose
  obtain ⟨post, rfl⟩ := List.head?_eq_some_iff.mp hclose
  have hwhole : openBrace :: (digits ++ closeBrace :: post) =
      (openBrace :: digits ++ [closeBrace]) ++ post := by simp
  refine ⟨openBrace :: digits ++ [closeBrace], ?_, ?_⟩
  · rw [hwhole, unescape_append (by simp +decide [hplain])]
    congr 2
    simp
  · obtain ⟨hfour, htwo⟩ := length_le_of_codePoint hpoint
    have hpos := List.length_pos_iff.mpr hne
    simp only [List.length_append, List.length_cons, List.length_nil]
    -- One digit gives two bytes at most; two digits and the braces are four bytes already.
    by_cases hone : digits.length = 1
    · rw [hone] at hlt
      have hle := htwo (by omega)
      omega
    · omega

/-- What is behind `\u` is taken as it stands, but for the second backslash of a pair. -/
theorem unescape_unicode {t value : Text} {n : Nat} (h : unicodeEscape? t = some (value, n)) :
    ∃ literal, unescape t = literal ++ unescape (t.drop n) ∧ value.length ≤ literal.length := by
  unfold unicodeEscape? at h
  split at h
  case isTrue hbrace =>
    obtain ⟨rest, rfl⟩ := List.head?_eq_some_iff.mp hbrace
    dsimp only at h
    split at h
    case isTrue hclosed =>
      obtain ⟨value', hvalue, h⟩ := Option.map_eq_some_iff.mp h
      obtain ⟨rfl, rfl⟩ := Prod.mk.inj h
      obtain ⟨unit, hunit, hpoint⟩ := Option.bind_eq_some_iff.mp hvalue
      exact unescape_braced (List.takeWhile_prefix _) hclosed.1 hclosed.2 hunit hpoint
    case isFalse => exact absurd h (by simp)
  case isFalse =>
    simp only [Option.bind_eq_bind, Option.bind_eq_some_iff] at h
    obtain ⟨unit, hunit, h⟩ := h
    obtain ⟨hread, hlength, -⟩ := unescape_hexAhead hunit
    cases hpoint : codePoint? unit with
    | some value' =>
      rw [hpoint] at h
      obtain ⟨rfl, rfl⟩ := Prod.mk.inj (Option.some.inj h)
      exact ⟨_, hread, by rw [hlength]; exact (length_le_of_codePoint hpoint).1⟩
    | none =>
      rw [hpoint] at h
      obtain ⟨value', hvalue, h⟩ := Option.map_eq_some_iff.mp h
      obtain ⟨rfl, rfl⟩ := Prod.mk.inj h
      obtain ⟨low, hlow, hpair⟩ := Option.bind_eq_some_iff.mp hvalue
      refine ⟨t.take 4 ++ 0x75 :: ((t.drop 4).drop 2).take 4, ?_, ?_⟩
      · rw [hread, unescape_unitEscape hlow, List.append_assoc, List.cons_append, List.drop_drop,
          List.drop_drop]
      · have hle := length_le_of_surrogatePair hpair
        rw [List.length_append, hlength]
        omega

/-- A line or paragraph separator has three bytes, none of them a backslash. -/
theorem parts_of_startsLine {c : Byte} {rest : Text} (h : startsLine (c :: rest) = true) :
    ∃ last post, last ≠ backslash ∧ c = 0xE2 ∧ rest = 0x80 :: last :: post := by
  unfold startsLine at h
  rcases Bool.or_eq_true_iff.mp h with h | h
  · obtain ⟨post, hpost⟩ := List.isPrefixOf_iff_prefix.mp h
    obtain ⟨rfl, rfl⟩ := List.cons.inj hpost.symm
    exact ⟨0xA8, post, by decide, rfl, rfl⟩
  · obtain ⟨post, hpost⟩ := List.isPrefixOf_iff_prefix.mp h
    obtain ⟨rfl, rfl⟩ := List.cons.inj hpost.symm
    exact ⟨0xA9, post, by decide, rfl, rfl⟩

/-- The escapes of one byte, apart from a line feed, that the program knows. -/
theorem escapeValue_of_ne {c : Byte} (hc : c ≠ newline) :
    (escapeValue c).length = 1 ∧
      ([(controlEscapes.lookup c).getD c] = escapeValue c ↔ c ∉ [0x62, 0x66, 0x76]) := by
  have hall : ∀ c : Byte, c ≠ newline → (escapeValue c).length = 1 ∧
      ([(controlEscapes.lookup c).getD c] = escapeValue c ↔ c ∉ [0x62, 0x66, 0x76]) :=
    Scan.forall_byte (by decide +kernel)
  exact hall c hc

/-- The escape in front of `n` bytes is read as something no shorter than its value, and as its
value only if the program knows it. -/
def TakesNoLess (rest value : Text) (n : Nat) : Prop :=
  ∃ literal, unescape (backslash :: rest) = literal ++ unescape (rest.drop n) ∧
    value.length ≤ literal.length ∧
    (value = literal → ∃ c rest', rest = c :: rest' ∧ n = 1 ∧ isKnownEscape c rest' = true)

/-- What is taken for something longer is not taken for its value. -/
theorem TakesNoLess.of_longer {rest value : Text} {n : Nat} (literal : Text)
    (hlt : value.length < literal.length)
    (hread : unescape (backslash :: rest) = literal ++ unescape (rest.drop n)) :
    TakesNoLess rest value n :=
  ⟨literal, hread, Nat.le_of_lt hlt, fun e => absurd hlt (by rw [e]; exact Nat.lt_irrefl _)⟩

/-- An escape that the program does not know is taken for something else, and for nothing
shorter than what it stands for. -/
theorem unescape_escape_ahead {rest value : Text} {n : Nat}
    (h : escapeAhead? rest = some (value, n)) : TakesNoLess rest value n := by
  cases rest with
  | nil => exact absurd h (by simp [escapeAhead?])
  | cons c rest =>
    have hread : unescape (backslash :: c :: rest) = escapeValue c ++ unescape rest := by
      rw [unescape, if_pos rfl]
    rw [escapeAhead?] at h
    split at h
    case isTrue hc =>
      obtain ⟨value', hvalue, h⟩ := Option.map_eq_some_iff.mp h
      obtain ⟨rfl, rfl⟩ := Prod.mk.inj h
      obtain ⟨unit, hunit, hpoint⟩ := Option.bind_eq_some_iff.mp hvalue
      obtain ⟨hdigits, hlength, hlt⟩ := unescape_hexAhead hunit
      have hle := (length_le_of_codePoint hpoint).2 (by omega)
      refine .of_longer (c :: rest.take 2) (by rw [List.length_cons, hlength]; omega) ?_
      rw [hread, hdigits, hc]
      rfl
    case isFalse =>
      split at h
      case isTrue hc =>
        obtain ⟨⟨value', m⟩, hunicode, h⟩ := Option.map_eq_some_iff.mp h
        obtain ⟨rfl, rfl⟩ := Prod.mk.inj h
        obtain ⟨literal, hliteral, hle⟩ := unescape_unicode hunicode
        refine .of_longer (c :: literal) (Nat.lt_succ_of_le hle) ?_
        rw [hread, hliteral, hc]
        rfl
      case isFalse =>
        split at h
        case isTrue hc =>
          obtain ⟨rfl, rfl⟩ := Prod.mk.inj (Option.some.inj h)
          cases hnext : rest.head? == some newline with
          | true =>
            obtain ⟨post, rfl⟩ := List.head?_eq_some_iff.mp (beq_iff_eq.mp hnext)
            refine .of_longer [carriageReturn, newline] (by decide) ?_
            rw [hread, hc, unescape_cons (by decide)]
            rfl
          | false =>
            refine .of_longer [carriageReturn] (by decide) ?_
            rw [hread, hc, if_neg (by simpa using hnext)]
            rfl
        case isFalse =>
          split at h
          case isTrue hc =>
            obtain ⟨rfl, rfl⟩ := Prod.mk.inj (Option.some.inj h)
            exact ⟨[], by rw [hread, hc]; rfl, Nat.le_refl _,
              fun _ => ⟨c, rest, rfl, rfl, by rw [hc]; rfl⟩⟩
          case isFalse =>
            split at h
            case isTrue hline =>
              obtain ⟨rfl, rfl⟩ := Prod.mk.inj (Option.some.inj h)
              obtain ⟨last, post, hlast, rfl, rfl⟩ := parts_of_startsLine hline
              refine .of_longer [0xE2, 0x80, last] (Nat.succ_pos _) ?_
              rw [hread, unescape_cons (by decide), unescape_cons hlast]
              rfl
            case isFalse hx hu hreturn hnewline hline =>
              obtain ⟨rfl, rfl⟩ := Prod.mk.inj (Option.some.inj h)
              obtain ⟨hlength, hsame⟩ := escapeValue_of_ne hnewline
              refine ⟨escapeValue c, hread, Nat.le_of_eq hlength.symm, fun he =>
                ⟨c, rest, rfl, rfl, ?_⟩⟩
              have hother := hsame.mp he
              simp_all [isKnownEscape]

/-- An escape that the program knows is one byte and has its value. -/
theorem escapeAhead_of_known {c : Byte} {rest : Text} (h : isKnownEscape c rest = true) :
    escapeAhead? (c :: rest) = some (escapeValue c, 1) := by
  simp only [isKnownEscape, Bool.and_eq_true, Bool.not_eq_true', List.contains_eq_mem,
    decide_eq_false_iff_not, List.mem_cons, List.not_mem_nil, or_false, not_or] at h
  obtain ⟨⟨hb, hf, hu, hv, hx, hreturn⟩, hline⟩ := h
  rw [escapeAhead?, if_neg hx, if_neg hu, if_neg hreturn]
  split
  case isTrue hnewline =>
    rw [hnewline]
    rfl
  case isFalse hnewline =>
    have hother : c ∉ [0x62, 0x66, 0x76] := by simp [hb, hf, hv]
    rw [if_neg (by simp [hline]), (escapeValue_of_ne hnewline).2.mpr hother]

/-! ### Both readings of a text -/

/-- A byte that is no backslash is plain unless it is a carriage return. -/
theorem isPlain_cons {b : Byte} (hb : b ≠ backslash) (rest : Text) :
    isPlain (b :: rest) = (b != carriageReturn && isPlain rest) := by
  rw [isPlain.eq_def]
  simp only [if_neg hb]

/-- The program's reading is no shorter, and where it is the same, it knows every escape. -/
theorem length_cook_le {raw value : Text} (h : cook raw = some value) :
    value.length ≤ (unescape raw).length ∧ (value = unescape raw → raw.isPlain = true) := by
  match raw, h with
  | [], h =>
    rw [cook] at h
    obtain rfl := Option.some.inj h
    exact ⟨Nat.le_refl _, fun _ => rfl⟩
  | b :: rest, h =>
    rw [cook] at h
    by_cases hslash : b = backslash
    · rw [if_pos hslash] at h
      subst hslash
      cases hescape : escapeAhead? rest with
      | none =>
        rw [hescape] at h
        exact absurd h (by simp)
      | some escape =>
        obtain ⟨head, n⟩ := escape
        rw [hescape] at h
        obtain ⟨more, hmore, rfl⟩ := Option.map_eq_some_iff.mp h
        obtain ⟨hle, hplain⟩ := length_cook_le hmore
        obtain ⟨literal, hread, hshorter, hknown⟩ := unescape_escape_ahead hescape
        rw [hread, List.length_append, List.length_append]
        refine ⟨Nat.add_le_add hshorter hle, fun he => ?_⟩
        have hlengths := congrArg List.length he
        rw [List.length_append, List.length_append] at hlengths
        obtain ⟨hhead, htail⟩ := List.append_inj he (by omega)
        obtain ⟨c, rest', rfl, rfl, hc⟩ := hknown hhead
        rw [isPlain, if_pos rfl, hc, Bool.true_and]
        exact hplain htail
    rw [if_neg hslash] at h
    rw [unescape_cons hslash, isPlain_cons hslash]
    by_cases hreturn : b = carriageReturn
    · rw [if_pos hreturn] at h
      obtain ⟨more, hmore, rfl⟩ := Option.map_eq_some_iff.mp h
      obtain ⟨hle, -⟩ := length_cook_le hmore
      refine ⟨Nat.succ_le_succ (Nat.le_trans hle ?_), fun he => ?_⟩
      · split
        case isTrue hnext =>
          obtain ⟨post, rfl⟩ := List.head?_eq_some_iff.mp hnext
          rw [unescape_cons (by decide), List.drop_one]
          exact Nat.le_succ _
        case isFalse => exact Nat.le_refl _
      · exact absurd ((List.cons.inj he).1.trans hreturn) (by decide)
    · rw [if_neg hreturn] at h
      obtain ⟨more, hmore, rfl⟩ := Option.map_eq_some_iff.mp h
      obtain ⟨hle, hplain⟩ := length_cook_le hmore
      refine ⟨Nat.succ_le_succ hle, fun he => ?_⟩
      rw [hplain (List.cons.inj he).2, Bool.and_true]
      exact bne_iff_ne.mpr hreturn
termination_by raw.length
decreasing_by all_goals (simp only [List.length_drop, List.length_cons]; omega)

/-- The value of a plain text is what the program makes of it. -/
theorem cook_of_isPlain {raw : Text} (h : raw.isPlain = true) : cook raw = some (unescape raw) := by
  induction raw using escape_induction with
  | nil => rw [cook]; rfl
  | lone => exact absurd h (by decide)
  | escape c rest ih =>
    rw [isPlain, if_pos rfl, Bool.and_eq_true] at h
    rw [cook, if_pos rfl, escapeAhead_of_known h.1]
    simp only [List.drop_one, List.tail_cons, ih h.2, Option.map_some]
    rw [unescape, if_pos rfl]
  | byte b rest hslash ih =>
    rw [isPlain_cons hslash, Bool.and_eq_true, bne_iff_ne] at h
    rw [cook, if_neg hslash, if_neg h.1, ih h.2, unescape_cons hslash]
    rfl

/-- **The program reads a text by the rules** if and only if it knows all the escapes in it. -/
theorem cook_eq_unescape_iff (raw : Text) : cook raw = some (unescape raw) ↔ raw.isPlain = true :=
  ⟨fun h => (length_cook_le h).2 rfl, cook_of_isPlain⟩

end Text

end JsxStyle
