import Mathlib.Data.List.Infix

/-! Python `str` operations the migration tool relies on, over code point lists: `find`,
`rfind`, `in`, `splitlines(keepends=True)`, `strip`, `lstrip` and `startswith`. -/
namespace MigrateFlowOnly

/-- A Python `str` read from a UTF-8 file: its sequence of code points. -/
abbrev Text := List Char

/-- First index at which `sub` occurs in `s`, as `s.find(sub)`; `none` plays `-1`. -/
def findFrom (sub : Text) : Text → Option Nat
  | [] => if sub <+: [] then some 0 else none
  | c :: cs => if sub <+: c :: cs then some 0 else (findFrom sub cs).map (· + 1)

/-- `s.find(sub, start)`: the search runs over `s[start:]`, and a start past the end
finds nothing. -/
def find (s sub : Text) (start : Nat) : Option Nat :=
  if s.length < start then none else (findFrom sub (s.drop start)).map (· + start)

theorem findFrom_eq_some_iff {sub : Text} :
    ∀ {s : Text} {i : Nat},
      findFrom sub s = some i ↔ sub <+: s.drop i ∧ ∀ k < i, ¬ sub <+: s.drop k
  | [], i => by
    by_cases h : sub <+: [] <;> cases i <;> simp [findFrom, h]
    exact ⟨0, by omega⟩
  | c :: cs, i => by
    by_cases h : sub <+: c :: cs
    · cases i <;> simp [findFrom, h]
      exact fun _ => ⟨0, by omega, h⟩
    · cases i with
      | zero => simp [findFrom, h]
      | succ j =>
        simp only [findFrom, h, if_false, Option.map_eq_some', findFrom_eq_some_iff,
          List.drop_succ_cons, Nat.add_right_cancel_iff, exists_eq_right]
        constructor
        · rintro ⟨hj, hk⟩
          refine ⟨hj, fun k hk' => ?_⟩
          cases k with
          | zero => exact h
          | succ k => exact hk k (by omega)
        · rintro ⟨hj, hk⟩
          exact ⟨hj, fun k hk' => hk (k + 1) (by omega)⟩

theorem findFrom_eq_none_iff {sub : Text} :
    ∀ {s : Text}, findFrom sub s = none ↔ ¬ sub <:+: s
  | [] => by by_cases h : sub <+: [] <;> simp_all [findFrom, List.infix_nil, List.prefix_nil]
  | c :: cs => by
    by_cases h : sub <+: c :: cs <;> simp [findFrom, h, List.infix_cons_iff, findFrom_eq_none_iff]

/-- With no occurrence starting inside `p`, the search over `p ++ q` is the search over `q`
shifted by `p`. -/
theorem findFrom_append_of_no_early_match {sub : Text} :
    ∀ {p : Text} (q : Text), (∀ k < p.length, ¬ sub <+: (p ++ q).drop k) →
      findFrom sub (p ++ q) = (findFrom sub q).map (· + p.length)
  | [], q, _ => by simp
  | c :: p, q, h => by
    have h0 : ¬ sub <+: c :: (p ++ q) := h 0 (by simp)
    have ih : findFrom sub (p ++ q) = (findFrom sub q).map (· + p.length) :=
      findFrom_append_of_no_early_match q (fun k hk => h (k + 1) (by simp; omega))
    rw [List.cons_append, findFrom, if_neg h0, ih, Option.map_map]
    congr 1

theorem find_zero (s sub : Text) : find s sub 0 = findFrom sub s := by
  simp [find, Option.map_id']

theorem find_of_le {s : Text} (sub : Text) {start : Nat} (h : start ≤ s.length) :
    find s sub start = (findFrom sub (s.drop start)).map (· + start) := by
  simp [find, show ¬ s.length < start by omega]

theorem le_of_find_eq_some {s sub : Text} {start i : Nat} (h : find s sub start = some i) :
    start ≤ i := by
  unfold find at h
  split_ifs at h
  obtain ⟨k, -, rfl⟩ := Option.map_eq_some'.1 h
  omega

/-- A search from `start` that finds nothing rules out every occurrence at or after it. -/
theorem not_prefix_drop_of_find_eq_none {s sub : Text} {start j : Nat}
    (h : find s sub start = none) (hs : start ≤ s.length) (hj : start ≤ j) : ¬ sub <+: s.drop j := by
  rw [find_of_le sub hs, Option.map_eq_none'] at h
  intro hp
  refine findFrom_eq_none_iff.1 h (hp.isInfix.trans ?_)
  rw [show j = start + (j - start) by omega, ← List.drop_drop]
  exact (List.drop_suffix _ _).isInfix

/-- A one-character search returns an index holding that character. -/
theorem getElem?_of_find_singleton {t : Text} {c : Char} {start i : Nat}
    (h : find t [c] start = some i) : t[i]? = some c := by
  unfold find at h
  split_ifs at h
  obtain ⟨k, hk, rfl⟩ := Option.map_eq_some'.1 h
  obtain ⟨rest, hrest⟩ := (findFrom_eq_some_iff.1 hk).1
  have h0 : ((t.drop start).drop k)[0]? = some c := by
    rw [← hrest, List.singleton_append, List.getElem?_cons_zero]
  rwa [List.getElem?_drop, List.getElem?_drop, Nat.add_zero, Nat.add_comm] at h0

/-- Last index at which `sub` occurs in `s`, as `s.rfind(sub)`. -/
def rfindFrom (sub : Text) : Text → Option Nat
  | [] => if sub <+: [] then some 0 else none
  | c :: cs =>
    match rfindFrom sub cs with
    | some i => some (i + 1)
    | none => if sub <+: c :: cs then some 0 else none

/-- `s.rfind(sub, 0, stop)`: the last occurrence lying inside `s[0:stop]`. -/
def rfind (s sub : Text) (stop : Nat) : Option Nat := rfindFrom sub (s.take stop)

theorem rfindFrom_eq_none_iff {sub : Text} :
    ∀ {s : Text}, rfindFrom sub s = none ↔ ¬ sub <:+: s
  | [] => by by_cases h : sub <+: [] <;> simp_all [rfindFrom, List.infix_nil, List.prefix_nil]
  | c :: cs => by
    have ih : rfindFrom sub cs = none ↔ ¬ sub <:+: cs := rfindFrom_eq_none_iff
    cases h : rfindFrom sub cs with
    | some i => simp_all [rfindFrom, List.infix_cons_iff]
    | none =>
      by_cases hp : sub <+: c :: cs <;> simp_all [rfindFrom, List.infix_cons_iff]

/-- An occurrence inside `q` hides every occurrence in `p`. -/
theorem rfindFrom_append_of_occurs {sub q : Text} (hq : sub <:+: q) :
    ∀ p : Text, rfindFrom sub (p ++ q) = (rfindFrom sub q).map (· + p.length)
  | [] => by simp
  | c :: p => by
    obtain ⟨i, hi⟩ := Option.ne_none_iff_exists'.mp
      (mt rfindFrom_eq_none_iff.mp (not_not.mpr hq))
    have ih := rfindFrom_append_of_occurs hq p
    simp only [hi, Option.map_some'] at ih
    rw [List.cons_append, rfindFrom, ih, hi]
    simp only [Option.map_some', List.length_cons, Option.some.injEq]
    omega

/-- `rfindFrom` points at an occurrence. -/
theorem rfindFrom_occurs {sub : Text} :
    ∀ {s : Text} {i : Nat}, rfindFrom sub s = some i → sub <+: s.drop i
  | [], i, h => by
    by_cases hp : sub <+: [] <;> simp_all [rfindFrom]
  | c :: cs, i, h => by
    cases hr : rfindFrom sub cs with
    | some j =>
      simp only [rfindFrom, hr, Option.some.injEq] at h
      subst h
      simpa using rfindFrom_occurs hr
    | none =>
      by_cases hp : sub <+: c :: cs <;> simp [rfindFrom, hr, hp] at h
      subst h
      simpa using hp

/-- `rfindFrom` returns an index inside the text, or its length for an empty pattern. -/
theorem rfindFrom_le_length {sub : Text} :
    ∀ {s : Text} {i : Nat}, rfindFrom sub s = some i → i ≤ s.length
  | [], i, h => by
    by_cases hp : sub <+: [] <;> simp_all [rfindFrom]
  | c :: cs, i, h => by
    cases hr : rfindFrom sub cs with
    | some j =>
      simp only [rfindFrom, hr, Option.some.injEq] at h
      have := rfindFrom_le_length hr
      simp only [List.length_cons]
      omega
    | none =>
      by_cases hp : sub <+: c :: cs <;> simp [rfindFrom, hr, hp] at h
      simp [← h]

/-- An occurrence of `sub` in `a ++ b :: c` avoiding the character `b` lies in `a` or in `c`. -/
theorem infix_of_infix_append_cons {sub a c : Text} {b : Char} (hb : b ∉ sub)
    (h : sub <:+: a ++ b :: c) : sub <:+: a ∨ sub <:+: c := by
  obtain ⟨s, t, hst⟩ := h
  rw [List.append_assoc] at hst
  rcases List.append_eq_append_iff.mp hst with ⟨a', ha, hsub⟩ | ⟨c', hs, hc⟩
  · rcases List.append_eq_append_iff.mp hsub with ⟨x, ha', -⟩ | ⟨x, hsub', hbc⟩
    · exact .inl ⟨s, x, by simp [ha, ha']⟩
    · cases x with
      | nil => exact .inl ⟨s, [], by simp [ha, hsub']⟩
      | cons y ys =>
        obtain ⟨rfl, -⟩ := List.cons_eq_cons.mp hbc
        exact absurd (by simp [hsub']) hb
  · cases c' with
    | nil =>
      cases sub with
      | nil => exact .inl List.nil_infix
      | cons z zs =>
        obtain ⟨rfl, -⟩ := List.cons_eq_cons.mp (by simpa using hc)
        exact absurd (List.mem_cons_self _ _) hb
    | cons y ys =>
      obtain ⟨-, rfl⟩ := List.cons_eq_cons.mp hc
      exact .inr ⟨ys, t, by simp⟩

/-- A prefix of `a ++ b :: y` avoiding the character `b` is a prefix of `a`. -/
theorem prefix_of_prefix_append_cons {sub a y : Text} {b : Char} (hb : b ∉ sub)
    (h : sub <+: a ++ b :: y) : sub <+: a := by
  obtain ⟨r, hr⟩ := h
  rcases List.append_eq_append_iff.mp hr with ⟨a', ha, -⟩ | ⟨c', hs, hc⟩
  · exact ⟨a', ha.symm⟩
  · cases c' with
    | nil => exact ⟨[], by simp [hs]⟩
    | cons x xs =>
      obtain ⟨rfl, -⟩ := List.cons_eq_cons.mp hc
      exact absurd (by simp [hs]) hb

/-- A last occurrence is not moved by text after a separator it cannot contain. -/
theorem rfindFrom_append_of_absent_after {sub y : Text} {b : Char} (hb : b ∉ sub)
    (hy : ¬ sub <:+: y) : ∀ x : Text, rfindFrom sub (x ++ b :: y) = rfindFrom sub (x ++ [b])
  | [] => by
    have hne : sub ≠ [] := by rintro rfl; exact hy List.nil_infix
    have hnone : rfindFrom sub y = none := rfindFrom_eq_none_iff.mpr hy
    have hnil : rfindFrom sub [] = none :=
      rfindFrom_eq_none_iff.mpr (by simpa [List.infix_nil] using hne)
    have h1 : ¬ sub <+: b :: y := fun h => hne (List.prefix_nil.mp
      (prefix_of_prefix_append_cons hb (show sub <+: [] ++ b :: y from h)))
    have h2 : ¬ sub <+: [b] := fun h => h1 (h.trans (by simp))
    rw [List.nil_append, List.nil_append, rfindFrom, rfindFrom, hnone, hnil]
    simp [h1, h2]
  | c :: x => by
    have ih := rfindFrom_append_of_absent_after hb hy x
    have hp : sub <+: c :: (x ++ b :: y) ↔ sub <+: c :: (x ++ [b]) :=
      ⟨fun h => (prefix_of_prefix_append_cons hb (show sub <+: (c :: x) ++ b :: y by simpa using h)).trans
          (by simp),
        fun h => h.trans (by simp)⟩
    rw [List.cons_append, List.cons_append, rfindFrom, rfindFrom, ih]
    simp only [hp]

/-- The first occurrence of a character is its first position. -/
theorem findFrom_singleton_append {c : Char} {z : Text} :
    ∀ {x : Text}, c ∉ x → findFrom [c] (x ++ c :: z) = some x.length
  | [], _ => by simp [findFrom]
  | d :: x, hx => by
    have hd : ¬ [c] <+: d :: (x ++ c :: z) := by
      simp only [List.cons_prefix_cons, List.nil_prefix, and_true]
      exact fun h => hx (h ▸ List.mem_cons_self _ _)
    simp [findFrom, hd, findFrom_singleton_append (fun h => hx (List.mem_cons_of_mem _ h))]

theorem findFrom_singleton_eq_none_iff {c : Char} :
    ∀ {s : Text}, findFrom [c] s = none ↔ c ∉ s
  | [] => by simp [findFrom]
  | d :: s => by
    by_cases h : c = d
    · subst h
      simp [findFrom]
    · simp [findFrom, h, findFrom_singleton_eq_none_iff]

theorem findFrom_of_starts {sub s : Text} (h : sub <+: s) : findFrom sub s = some 0 := by
  cases s <;> simp [findFrom, h]

theorem singleton_infix_iff {c : Char} {s : Text} : [c] <:+: s ↔ c ∈ s := by
  rw [← not_iff_not, ← findFrom_eq_none_iff, findFrom_singleton_eq_none_iff]

/-- The last occurrence of a character before a stretch free of it. -/
theorem rfindFrom_singleton_last {c : Char} {q : Text} (hq : c ∉ q) (x : Text) :
    rfindFrom [c] (x ++ c :: q) = some x.length := by
  rw [rfindFrom_append_of_occurs (singleton_infix_iff.mpr (List.mem_cons_self _ _)), rfindFrom,
    rfindFrom_eq_none_iff.mpr (mt singleton_infix_iff.mp hq)]
  simp

/-- A nonempty pattern found by `rfindFrom` fits inside the text. -/
theorem rfindFrom_add_length_le {sub s : Text} {i : Nat} (hs : sub ≠ []) (h : rfindFrom sub s = some i) :
    i + sub.length ≤ s.length := by
  have hp := (rfindFrom_occurs h).length_le
  rw [List.length_drop] at hp
  have := rfindFrom_le_length h
  have : 0 < sub.length := List.length_pos.mpr hs
  omega

/-- Python's slice `s[a:b]`. -/
def slice (s : Text) (a b : Nat) : Text := (s.drop a).take (b - a)

theorem slice_append {t : Text} {a b c : Nat} (hab : a ≤ b) (hbc : b ≤ c) :
    slice t a c = slice t a b ++ slice t b c := by
  unfold slice
  rw [show c - a = (b - a) + (c - b) by omega, List.take_add, List.drop_drop, Nat.add_sub_cancel' hab]

theorem take_append_slice_append_drop (t : Text) {a b : Nat} (hab : a ≤ b) :
    t.take a ++ slice t a b ++ t.drop b = t := by
  have hb : t.drop b = (t.drop a).drop (b - a) := by rw [List.drop_drop, Nat.add_sub_cancel' hab]
  rw [slice, List.append_assoc, hb, List.take_append_drop, List.take_append_drop]

/-- Characters at which `str.splitlines` ends a line. -/
def isLineBoundary (c : Char) : Bool :=
  c = '\n' || c = '\r' || c = '\x0b' || c = '\x0c' || c = '\x1c' || c = '\x1d' ||
    c = '\x1e' || c = '\x85' || c = '\u2028' || c = '\u2029'

/-- `s.splitlines(keepends=True)`: every line keeps its terminator and `\r\n` ends one
line. Written from the right: a character joins the first line of the rest unless it is a
boundary, and `\r` absorbs a following line that is a lone `\n`. -/
def splitLines : Text → List Text
  | [] => []
  | c :: rest =>
    match splitLines rest with
    | [] => [[c]]
    | l :: ls =>
      if isLineBoundary c then
        if c = '\r' ∧ l = ['\n'] then ['\r', '\n'] :: ls else [c] :: l :: ls
      else (c :: l) :: ls

/-- A line that ends with a line boundary character. -/
def EndsLine (l : Text) : Prop := ∃ l' b, l = l' ++ [b] ∧ isLineBoundary b = true

theorem flatten_splitLines (s : Text) : (splitLines s).flatten = s := by
  induction s with
  | nil => rfl
  | cons c rest ih =>
    cases h : splitLines rest with
    | nil => simp_all [splitLines]
    | cons l ls =>
      rw [h] at ih
      simp only [splitLines, h]
      by_cases hb : isLineBoundary c = true
      · by_cases hcr : c = '\r' ∧ l = ['\n']
        · obtain ⟨rfl, rfl⟩ := hcr
          simp [← ih]
        · simp [hb, hcr, ← ih]
      · simp [hb, ← ih]

theorem splitLines_ne_nil {s : Text} : ∀ l ∈ splitLines s, l ≠ [] := by
  induction s with
  | nil => simp [splitLines]
  | cons c rest ih =>
    cases h : splitLines rest with
    | nil => simp [splitLines, h]
    | cons l ls =>
      rw [h] at ih
      have hls : ∀ l' ∈ ls, l' ≠ [] := fun l' hl' => ih l' (List.mem_cons_of_mem _ hl')
      by_cases hb : isLineBoundary c = true
      · by_cases hcr : c = '\r' ∧ l = ['\n']
        · simpa [splitLines, h, hb, hcr] using hls
        · simpa [splitLines, h, hb, hcr] using ih
      · simpa [splitLines, h, hb] using hls

/-- A new first line ahead of the lines of `rest` keeps every line but the last ending. -/
theorem endsLine_dropLast_cons {l : Text} {ls : List Text} (hl : ls ≠ [] → EndsLine l)
    (h : ∀ l' ∈ ls.dropLast, EndsLine l') : ∀ l' ∈ (l :: ls).dropLast, EndsLine l' := by
  cases ls with
  | nil => simp
  | cons l₂ ls =>
    rw [List.dropLast_cons_of_ne_nil (List.cons_ne_nil _ _)]
    intro l' hl'
    rcases List.mem_cons.mp hl' with rfl | hl'
    · exact hl (List.cons_ne_nil _ _)
    · exact h l' hl'

/-- Every line `splitlines` returns, except the last, ends with a line boundary. -/
theorem splitLines_endsLine {s : Text} : ∀ l ∈ (splitLines s).dropLast, EndsLine l := by
  induction s with
  | nil => simp [splitLines]
  | cons c rest ih =>
    cases h : splitLines rest with
    | nil => simp [splitLines, h]
    | cons l ls =>
      rw [h] at ih
      by_cases hb : isLineBoundary c = true
      · by_cases hcr : c = '\r' ∧ l = ['\n']
        · simp only [splitLines, h, hb, hcr, and_self, if_true]
          refine endsLine_dropLast_cons (fun _ => ⟨['\r'], '\n', rfl, rfl⟩) ?_
          cases ls with
          | nil => simp
          | cons l₂ ls => exact fun l' hl' => ih l' (by simp [hl'])
        · simp only [splitLines, h, hb, hcr, if_true, if_false]
          exact endsLine_dropLast_cons (fun _ => ⟨[], c, rfl, hb⟩) ih
      · simp only [splitLines, h, hb, if_false]
        refine endsLine_dropLast_cons (fun hls => ?_) ?_
        · obtain ⟨l', b, rfl, hbl⟩ := ih l (by cases ls <;> simp_all)
          exact ⟨c :: l', b, rfl, hbl⟩
        · cases ls with
          | nil => simp
          | cons l₂ ls => exact fun l' hl' => ih l' (by simp [hl'])

/-- Joining lines that each lack `sub`, all but the last ending in a boundary character
`sub` does not contain, creates no occurrence of `sub`. -/
theorem not_infix_flatten {sub : Text} (hs : sub ≠ []) (hb : ∀ c ∈ sub, isLineBoundary c = false) :
    ∀ {ls : List Text}, (∀ l ∈ ls, ¬ sub <:+: l) → (∀ l ∈ ls.dropLast, EndsLine l) →
      ¬ sub <:+: ls.flatten
  | [], _, _ => by simpa [List.infix_nil] using hs
  | [l], h, _ => by simpa using h l (List.mem_singleton_self l)
  | l :: l₂ :: ls, h, he => by
    obtain ⟨l', b, rfl, hbl⟩ := he l (by simp)
    intro hin
    have hin' : sub <:+: l' ++ b :: (l₂ :: ls).flatten := by simpa using hin
    rcases infix_of_infix_append_cons (fun hm => by simp [hb b hm] at hbl) hin' with h1 | h1
    · exact h _ (List.mem_cons_self _ _) (h1.trans (List.infix_append [] _ _))
    · exact not_infix_flatten hs hb (fun l hl => h l (List.mem_cons_of_mem _ hl))
        (fun l hl => he l (by simp [hl])) h1

/-- Code points `str.isspace` accepts, which `strip()` and `lstrip()` remove. -/
def isSpace (c : Char) : Bool :=
  let n := c.toNat
  (0x09 ≤ n && n ≤ 0x0D) || (0x1C ≤ n && n ≤ 0x20) || n = 0x85 || n = 0xA0 || n = 0x1680 ||
    (0x2000 ≤ n && n ≤ 0x200A) || n = 0x2028 || n = 0x2029 || n = 0x202F || n = 0x205F ||
    n = 0x3000

/-- `s.lstrip()`. -/
def lstrip (s : Text) : Text := s.dropWhile isSpace

/-- `s.strip()`. -/
def strip (s : Text) : Text := ((lstrip s).reverse.dropWhile isSpace).reverse

theorem strip_eq_nil_iff {s : Text} : strip s = [] ↔ ∀ c ∈ s, isSpace c = true := by
  rw [← List.dropWhile_eq_nil_iff]
  constructor
  · intro h
    by_contra hne
    obtain ⟨c, cs, hc⟩ := List.exists_cons_of_ne_nil hne
    have hhead : isSpace c = false := by
      simpa [hc] using List.head_dropWhile_not isSpace s (by simp [hc])
    have hmem : c ∈ (lstrip s).reverse := by simp [lstrip, hc]
    have := List.dropWhile_eq_nil_iff.mp (List.reverse_eq_nil_iff.mp h) c hmem
    simp_all
  · intro h
    simp [strip, lstrip, h]

end MigrateFlowOnly
