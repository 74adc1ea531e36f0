import MigrateFlowOnly.PyStr

/-! The brace-depth loop of `_remove_method_block`, which ends one past the `}` that first
brings the depth back to zero, and the brace balance of a text. -/
namespace MigrateFlowOnly

/-- The change of brace depth one character makes. -/
def braceDelta (c : Char) : Int := if c = '{' then 1 else if c = '}' then -1 else 0

/-- Opening minus closing braces in a text. -/
def braceDiff (s : Text) : Int := (s.count '{' : Int) - s.count '}'

@[simp] theorem braceDiff_nil : braceDiff [] = 0 := rfl

@[simp] theorem braceDiff_cons (c : Char) (s : Text) :
    braceDiff (c :: s) = braceDelta c + braceDiff s := by
  simp only [braceDiff, braceDelta, List.count_cons, beq_iff_eq]
  split_ifs <;> simp_all <;> omega

@[simp] theorem braceDiff_append (s t : Text) : braceDiff (s ++ t) = braceDiff s + braceDiff t := by
  simp only [braceDiff, List.count_append]
  push_cast
  omega

/-- The `for i in range(open_brace, len(java_text))` loop, over the characters still to
scan: `depth` counts braces, and a `}` that brings it to zero ends the block. -/
def braceScan (depth : Int) (i : Nat) : Text → Option Nat
  | [] => none
  | ch :: rest =>
    if ch = '{' then braceScan (depth + 1) (i + 1) rest
    else if ch = '}' then
      if depth - 1 = 0 then some (i + 1) else braceScan (depth - 1) (i + 1) rest
    else braceScan depth (i + 1) rest

/-- The Brace Matcher: the scan of `_remove_method_block` from index `o`, with depth `0`. -/
def matchBlock (t : Text) (o : Nat) : Option Nat := braceScan 0 o (t.drop o)

/-- `n` characters of `s` close a block entered at depth `d`: the depth first returns to
zero after them. -/
def ClosesAt (d : Int) (s : Text) (n : Nat) : Prop :=
  0 < n ∧ d + braceDiff (s.take n) = 0 ∧ ∀ m < n, 0 < d + braceDiff (s.take m)

/-- The depth stays positive over the whole of `s`. -/
def StaysOpen (d : Int) (s : Text) : Prop := ∀ m ≤ s.length, 0 < d + braceDiff (s.take m)

theorem closesAt_cons {d : Int} {c : Char} {s : Text} {n : Nat} (hd : 0 < d)
    (h : ClosesAt (d + braceDelta c) s n) : ClosesAt d (c :: s) (n + 1) := by
  obtain ⟨hn, hz, hpos⟩ := h
  refine ⟨by omega, by simpa [Int.add_assoc] using hz, fun m hm => ?_⟩
  cases m with
  | zero => simpa using hd
  | succ m => simpa [Int.add_assoc] using hpos m (by omega)

theorem staysOpen_cons {d : Int} {c : Char} {s : Text} (hd : 0 < d)
    (h : StaysOpen (d + braceDelta c) s) : StaysOpen d (c :: s) := by
  intro m hm
  cases m with
  | zero => simpa using hd
  | succ m => simpa [Int.add_assoc] using h m (by simpa using hm)

/-- From a positive depth, the scan stops exactly where the depth first returns to zero. -/
theorem braceScan_eq_some {d : Int} {i j : Nat} {s : Text} (hd : 0 < d)
    (h : braceScan d i s = some j) : ∃ n, j = i + n ∧ ClosesAt d s n := by
  induction s generalizing d i with
  | nil => simp [braceScan] at h
  | cons ch rest ih =>
    simp only [braceScan] at h
    split_ifs at h with h1 h2 h3
    · obtain ⟨n, rfl, hn⟩ := ih (by omega) h
      exact ⟨n + 1, by omega, closesAt_cons hd (by simpa [braceDelta, h1] using hn)⟩
    · cases h
      refine ⟨1, rfl, by omega, by simp [braceDelta, h1, h2]; omega, ?_⟩
      intro m hm
      simpa [show m = 0 by omega] using hd
    · obtain ⟨n, rfl, hn⟩ := ih (by omega) h
      exact ⟨n + 1, by omega, closesAt_cons hd (by simpa [braceDelta, h1, h2, Int.sub_eq_add_neg] using hn)⟩
    · obtain ⟨n, rfl, hn⟩ := ih hd h
      exact ⟨n + 1, by omega, closesAt_cons hd (by simpa [braceDelta, h1, h2] using hn)⟩

/-- From a positive depth, a scan that finds no end saw the depth stay positive. -/
theorem braceScan_eq_none {d : Int} {i : Nat} {s : Text} (hd : 0 < d)
    (h : braceScan d i s = none) : StaysOpen d s := by
  induction s generalizing d i with
  | nil => intro m _; simpa using hd
  | cons ch rest ih =>
    simp only [braceScan] at h
    split_ifs at h with h1 h2 h3
    · exact staysOpen_cons hd (by simpa [braceDelta, h1] using ih (by omega) h)
    · exact staysOpen_cons hd
        (by simpa [braceDelta, h1, h2, Int.sub_eq_add_neg] using ih (by omega) h)
    · exact staysOpen_cons hd (by simpa [braceDelta, h1, h2] using ih hd h)

/-- The block end is unique: it is the first return of the depth to zero. -/
theorem closesAt_unique {d : Int} {s : Text} {n n' : Nat} (h : ClosesAt d s n)
    (h' : ClosesAt d s n') : n = n' := by
  by_contra hne
  rcases Nat.lt_or_gt_of_ne hne with hlt | hlt
  · have := h'.2.2 n hlt
    have := h.2.1
    omega
  · have := h.2.2 n' hlt
    have := h'.2.1
    omega

/-- A block closes inside the text it was entered in. -/
theorem ClosesAt.le_length {d : Int} {s : Text} {n : Nat} (h : ClosesAt d s n) :
    n ≤ s.length := by
  by_contra hlt
  have hpos := h.2.2 s.length (by omega)
  have hz := h.2.1
  rw [List.take_of_length_le (by omega)] at hz
  rw [List.take_length] at hpos
  omega

theorem not_staysOpen_of_closesAt {d : Int} {s : Text} {n : Nat} (h : ClosesAt d s n) :
    ¬ StaysOpen d s :=
  fun hs => by have := hs n h.le_length; have := h.2.1; omega

/-- The scan from a positive depth, characterised. -/
theorem braceScan_eq_some_iff {d : Int} {i n : Nat} {s : Text} (hd : 0 < d) :
    braceScan d i s = some (i + n) ↔ ClosesAt d s n := by
  constructor
  · intro h
    obtain ⟨n', hn', hc⟩ := braceScan_eq_some hd h
    rwa [show n = n' by omega]
  · intro hc
    cases h : braceScan d i s with
    | none => exact absurd (braceScan_eq_none hd h) (not_staysOpen_of_closesAt hc)
    | some j =>
      obtain ⟨n', rfl, hc'⟩ := braceScan_eq_some hd h
      rw [closesAt_unique hc hc']

theorem braceScan_eq_none_iff {d : Int} {i : Nat} {s : Text} (hd : 0 < d) :
    braceScan d i s = none ↔ StaysOpen d s := by
  refine ⟨braceScan_eq_none hd, fun hs => ?_⟩
  cases h : braceScan d i s with
  | none => rfl
  | some j =>
    obtain ⟨n, -, hc⟩ := braceScan_eq_some hd h
    exact absurd hs (not_staysOpen_of_closesAt hc)

/-- What follows a closed block does not change where the scan stops. -/
theorem braceScan_append_of_eq_some {d : Int} {i j : Nat} {s : Text} (q : Text)
    (h : braceScan d i s = some j) : braceScan d i (s ++ q) = some j := by
  induction s generalizing d i with
  | nil => simp [braceScan] at h
  | cons ch rest ih =>
    simp only [List.cons_append, braceScan] at h ⊢
    split_ifs at h ⊢ <;> first | exact h | exact ih h

/-- A scan that stops, stops past its first index and within the text. -/
theorem braceScan_bounds {d : Int} {i j : Nat} {s : Text} (h : braceScan d i s = some j) :
    i < j ∧ j ≤ i + s.length := by
  induction s generalizing d i with
  | nil => simp [braceScan] at h
  | cons ch rest ih =>
    simp only [braceScan] at h
    rw [List.length_cons]
    split_ifs at h
    · have := ih h; omega
    · cases h; omega
    · have := ih h; omega
    · have := ih h; omega

/-- A brace block: an opening `{` whose matching brace is the block's last character. -/
def IsBraceBlock (b : Text) : Prop := ∃ inner, b = '{' :: inner ∧ ClosesAt 1 inner inner.length

/-- From the opening brace of a brace block, the Brace Matcher returns the block's end. -/
theorem matchBlock_of_isBraceBlock {b : Text} (hb : IsBraceBlock b) (p q : Text) :
    matchBlock (p ++ b ++ q) p.length = some (p.length + b.length) := by
  obtain ⟨inner, rfl, hc⟩ := hb
  have h : braceScan 1 (p.length + 1) inner = some (p.length + 1 + inner.length) :=
    (braceScan_eq_some_iff (by omega)).mpr hc
  simp only [matchBlock, List.append_assoc, List.drop_left, List.cons_append, braceScan,
    if_true, Int.zero_add]
  rw [braceScan_append_of_eq_some q h, List.length_cons]
  congr 1
  omega

theorem matchBlock_open {t : Text} {o : Nat} (ho : t[o]? = some '{') :
    matchBlock t o = braceScan 1 (o + 1) (t.drop (o + 1)) := by
  obtain ⟨hlt, heq⟩ := List.getElem?_eq_some_iff.mp ho
  simp [matchBlock, List.drop_eq_getElem_cons hlt, heq, braceScan]

/-- A block found from `o` ends past `o` and within the text. -/
theorem matchBlock_bounds {t : Text} {o e : Nat} (h : matchBlock t o = some e) :
    o < e ∧ e ≤ t.length := by
  have := braceScan_bounds (show braceScan 0 o (t.drop o) = some e from h)
  rw [List.length_drop] at this
  omega

theorem slice_open {t : Text} {o : Nat} (ho : t[o]? = some '{') (m : Nat) :
    slice t o (o + 1 + m) = '{' :: (t.drop (o + 1)).take m := by
  obtain ⟨hlt, heq⟩ := List.getElem?_eq_some_iff.mp ho
  simp [slice, List.drop_eq_getElem_cons hlt, heq, show o + 1 + m - o = m + 1 by omega]

theorem count_eq_iff_braceDiff (s : Text) :
    s.count '{' = s.count '}' ↔ braceDiff s = 0 := by
  simp only [braceDiff]
  omega

theorem count_lt_iff_braceDiff (s : Text) :
    s.count '}' < s.count '{' ↔ 0 < braceDiff s := by
  simp only [braceDiff]
  omega

/-- The Brace Matcher returns the least `j > o` for which `t[o:j]` holds as many `}` as `{`;
before it every nonempty prefix of the block has more `{` than `}`. -/
theorem matchBlock_eq_some_iff {t : Text} {o : Nat} (ho : t[o]? = some '{') (j : Nat) :
    matchBlock t o = some j ↔
      o < j ∧ (slice t o j).count '{' = (slice t o j).count '}' ∧
        ∀ j', o < j' → j' < j → (slice t o j').count '}' < (slice t o j').count '{' := by
  rw [matchBlock_open ho]
  constructor
  · intro h
    obtain ⟨n, rfl, hn, hz, hpos⟩ := braceScan_eq_some (by omega) h
    refine ⟨by omega, ?_, fun j' hj' hj'' => ?_⟩
    · rw [slice_open ho, count_eq_iff_braceDiff, braceDiff_cons]
      simpa [braceDelta] using hz
    · obtain ⟨m, rfl⟩ : ∃ m, j' = o + 1 + m := ⟨j' - o - 1, by omega⟩
      rw [slice_open ho, count_lt_iff_braceDiff, braceDiff_cons]
      simpa [braceDelta] using hpos m (by omega)
  · rintro ⟨hj, hz, hpos⟩
    obtain ⟨n, rfl⟩ : ∃ n, j = o + 1 + n := ⟨j - o - 1, by omega⟩
    refine (braceScan_eq_some_iff (by omega)).mpr ⟨?_, ?_, fun m hm => ?_⟩
    · rcases Nat.eq_zero_or_pos n with rfl | hn
      · have h0 := slice_open ho 0
        rw [Nat.add_zero] at h0
        simp [h0] at hz
      · exact hn
    · rw [slice_open ho, count_eq_iff_braceDiff, braceDiff_cons] at hz
      simpa [braceDelta] using hz
    · have := hpos (o + 1 + m) (by omega) (by omega)
      rw [slice_open ho, count_lt_iff_braceDiff, braceDiff_cons] at this
      simpa [braceDelta] using this

/-- The Brace Matcher finds nothing exactly when no `t[o:j]` balances. -/
theorem matchBlock_eq_none_iff {t : Text} {o : Nat} (ho : t[o]? = some '{') :
    matchBlock t o = none ↔
      ∀ j, o < j → (slice t o j).count '{' ≠ (slice t o j).count '}' := by
  constructor
  · intro h j hj hz
    rw [matchBlock_open ho, braceScan_eq_none_iff (by omega)] at h
    obtain ⟨m, rfl⟩ : ∃ m, j = o + 1 + m := ⟨j - o - 1, by omega⟩
    rw [slice_open ho, count_eq_iff_braceDiff, braceDiff_cons] at hz
    rcases Nat.lt_or_ge (t.drop (o + 1)).length m with hm | hm
    · have := h _ le_rfl
      rw [List.take_length] at this
      rw [List.take_of_length_le hm.le] at hz
      simp [braceDelta] at hz
      omega
    · have := h m hm
      simp [braceDelta] at hz
      omega
  · intro h
    cases hm : matchBlock t o with
    | none => rfl
    | some j =>
      obtain ⟨hj, hz, -⟩ := (matchBlock_eq_some_iff ho j).mp hm
      exact absurd hz (h j hj)

/-- Every prefix has at least as many `{` as `}`, and the totals are equal. -/
def Balanced (s : Text) : Prop :=
  (∀ n, (s.take n).count '}' ≤ (s.take n).count '{') ∧ s.count '{' = s.count '}'

theorem balanced_iff_braceDiff (s : Text) :
    Balanced s ↔ (∀ n, 0 ≤ braceDiff (s.take n)) ∧ braceDiff s = 0 := by
  simp only [Balanced, braceDiff]
  constructor
  · rintro ⟨h1, h2⟩
    exact ⟨fun n => by have := h1 n; omega, by omega⟩
  · rintro ⟨h1, h2⟩
    exact ⟨fun n => by have := h1 n; omega, by omega⟩

/-- One pass with a running depth `d`: it never drops below zero and ends at zero. -/
def depthOk (d : Int) : Text → Bool
  | [] => d == 0
  | c :: s => decide (0 ≤ d) && depthOk (d + braceDelta c) s

theorem depthOk_iff (d : Int) (s : Text) :
    depthOk d s = true ↔ (∀ n, 0 ≤ d + braceDiff (s.take n)) ∧ d + braceDiff s = 0 := by
  induction s generalizing d with
  | nil => simp only [depthOk, beq_iff_eq, List.take_nil, braceDiff_nil, Int.add_zero, forall_const]; omega
  | cons c s ih =>
    simp only [depthOk, Bool.and_eq_true, decide_eq_true_eq, ih, braceDiff_cons]
    constructor
    · rintro ⟨h0, hall, hz⟩
      refine ⟨fun n => ?_, by omega⟩
      cases n with
      | zero => simpa using h0
      | succ n => simpa [Int.add_assoc] using hall n
    · rintro ⟨hall, hz⟩
      refine ⟨by simpa using hall 0, fun n => ?_, by omega⟩
      simpa [Int.add_assoc] using hall (n + 1)

/-- Balance is decided by one pass over the text. -/
theorem balanced_iff_depthOk (s : Text) : Balanced s ↔ depthOk 0 s = true := by
  simp only [balanced_iff_braceDiff, depthOk_iff, Int.zero_add]

instance : DecidablePred Balanced := fun s => decidable_of_iff _ (balanced_iff_depthOk s).symm

/-- Cutting a piece out of a balanced text keeps it balanced exactly when the piece holds
as many `{` as `}`. -/
theorem balanced_cut_iff {a b c : Text} (h : Balanced (a ++ b ++ c)) :
    Balanced (a ++ c) ↔ braceDiff b = 0 := by
  rw [balanced_iff_braceDiff] at h ⊢
  obtain ⟨hpre, htot⟩ := h
  simp only [braceDiff_append] at htot
  constructor
  · rintro ⟨-, h⟩
    simp only [braceDiff_append] at h
    omega
  · intro hb
    refine ⟨fun n => ?_, by simp only [braceDiff_append]; omega⟩
    rcases Nat.lt_or_ge n a.length with hn | hn
    · have := hpre n
      rw [List.append_assoc, List.take_append_of_le_length hn.le] at this
      rwa [List.take_append_of_le_length hn.le]
    · have := hpre (n + b.length)
      rw [List.append_assoc, List.take_append_eq_append_take,
        List.take_of_length_le (by omega : a.length ≤ n + b.length),
        List.take_append_eq_append_take,
        List.take_of_length_le (by omega : b.length ≤ n + b.length - a.length)] at this
      rw [List.take_append_eq_append_take, List.take_of_length_le hn]
      simp only [braceDiff_append] at this ⊢
      rwa [show n + b.length - a.length - b.length = n - a.length by omega, hb,
        Int.zero_add] at this

end MigrateFlowOnly
