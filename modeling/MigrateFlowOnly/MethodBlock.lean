import MigrateFlowOnly.BraceMatch

/-! `_remove_method_block`: it deletes the first brace block after the first occurrence of a
signature fragment, from the line of the nearest `/**` before it through one run of blanks. -/
namespace MigrateFlowOnly

/-- `"/**"`, the opening of a Javadoc comment. -/
def javadocOpen : Text := ['/', '*', '*']

/-- The `start` of `_remove_method_block`: the beginning of the line holding the nearest
`/**` before `pos`, or `pos` itself when no `/**` precedes it. -/
def deletionStart (javaText : Text) (pos : Nat) : Nat :=
  match rfind javaText javadocOpen pos with
  | some start =>
    match rfind javaText ['\n'] start with
    | some k => k + 1
    | none => 0
  | none => pos

/-- The trimming loop after the block: blanks up to and including the first newline. -/
def trimRun : Text → Nat
  | [] => 0
  | c :: cs =>
    if c = '\n' then 1
    else if c = '\r' ∨ c = ' ' ∨ c = '\t' then trimRun cs + 1
    else 0

/-- `_remove_method_block(java_text, signature_fragment)`. -/
def removeMethodBlock (javaText signatureFragment : Text) : Text :=
  match find javaText signatureFragment 0 with
  | none => javaText
  | some pos =>
    match find javaText ['{'] pos with
    | none => javaText
    | some openBrace =>
      match matchBlock javaText openBrace with
      | none => javaText
      | some e =>
        javaText.take (deletionStart javaText pos) ++ javaText.drop (e + trimRun (javaText.drop e))

theorem removeMethodBlock_of_find_none {t f : Text} (h : find t f 0 = none) :
    removeMethodBlock t f = t := by
  simp [removeMethodBlock, h]

/-- A fragment that does not occur leaves the text unchanged. -/
theorem removeMethodBlock_of_absent {t f : Text} (h : ¬ f <:+: t) : removeMethodBlock t f = t :=
  removeMethodBlock_of_find_none (by rw [find_zero]; exact findFrom_eq_none_iff.mpr h)

theorem removeMethodBlock_of_open_none {t f : Text} {pos : Nat} (hpos : find t f 0 = some pos)
    (h : find t ['{'] pos = none) : removeMethodBlock t f = t := by
  simp [removeMethodBlock, hpos, h]

theorem removeMethodBlock_of_match_none {t f : Text} {pos o : Nat} (hpos : find t f 0 = some pos)
    (ho : find t ['{'] pos = some o) (h : matchBlock t o = none) : removeMethodBlock t f = t := by
  simp [removeMethodBlock, hpos, ho, h]

theorem removeMethodBlock_of_match_some {t f : Text} {pos o e : Nat}
    (hpos : find t f 0 = some pos) (ho : find t ['{'] pos = some o) (he : matchBlock t o = some e) :
    removeMethodBlock t f = t.take (deletionStart t pos) ++ t.drop (e + trimRun (t.drop e)) := by
  simp [removeMethodBlock, hpos, ho, he]

/-- When the first `{` after the fragment opens a brace block `B`, the excision keeps the
text before the deletion start and what follows `B` past the trimmed blanks. -/
theorem removeMethodBlock_of_brace_block {X B Y f : Text} {pos : Nat} (hB : IsBraceBlock B)
    (hpos : find (X ++ B ++ Y) f 0 = some pos) (ho : find (X ++ B ++ Y) ['{'] pos = some X.length) :
    removeMethodBlock (X ++ B ++ Y) f =
      (X ++ B ++ Y).take (deletionStart (X ++ B ++ Y) pos) ++ Y.drop (trimRun Y) := by
  have hdrop : (X ++ B ++ Y).drop (X.length + B.length) = Y := List.drop_left' (by simp)
  rw [removeMethodBlock_of_match_some hpos ho (matchBlock_of_isBraceBlock hB X Y), hdrop,
    ← List.drop_drop, hdrop]

/-- The depth scan of `_remove_method_block` ends one past the brace matching the one at
`o`: the least `j > o` whose slice `t[o:j]` balances, with every shorter nonempty slice
holding more `{` than `}`; when there is none the excision leaves the text unchanged. -/
theorem matchBlock_finds_matching_brace (t : Text) (o : Nat) (ho : t[o]? = some '{') :
    (∀ j, matchBlock t o = some j ↔
      o < j ∧ (slice t o j).count '{' = (slice t o j).count '}' ∧
        ∀ j', o < j' → j' < j → (slice t o j').count '}' < (slice t o j').count '{') ∧
    (matchBlock t o = none ↔
      ∀ j, o < j → (slice t o j).count '{' ≠ (slice t o j).count '}') ∧
    ∀ f pos, find t f 0 = some pos → find t ['{'] pos = some o → matchBlock t o = none →
      removeMethodBlock t f = t :=
  ⟨matchBlock_eq_some_iff ho, matchBlock_eq_none_iff ho,
    fun _ _ hpos ho' h => removeMethodBlock_of_match_none hpos ho' h⟩

/-- A block holding a nested block, followed by one more character. -/
def nestedBlock : Text := "\x7ba\x7b\x7d\x7db".toList

theorem matchBlock_finds_matching_brace_sample :
    nestedBlock[0]? = some '{' ∧
    ((∀ j, matchBlock nestedBlock 0 = some j ↔
      0 < j ∧ (slice nestedBlock 0 j).count '{' = (slice nestedBlock 0 j).count '}' ∧
        ∀ j', 0 < j' → j' < j → (slice nestedBlock 0 j').count '}' < (slice nestedBlock 0 j').count '{') ∧
    (matchBlock nestedBlock 0 = none ↔
      ∀ j, 0 < j → (slice nestedBlock 0 j).count '{' ≠ (slice nestedBlock 0 j).count '}') ∧
    ∀ f pos, find nestedBlock f 0 = some pos → find nestedBlock ['{'] pos = some 0 →
      matchBlock nestedBlock 0 = none → removeMethodBlock nestedBlock f = nestedBlock) :=
  ⟨by decide, matchBlock_finds_matching_brace _ 0 (by decide)⟩

example : matchBlock "x\x7ba\x7b\x7d\x7db".toList 1 = some 6 := by decide

/-- The backward search for `/**` is not bounded by the member: a method with no
Javadoc of its own that follows another method's Javadoc takes that method with it. -/
theorem removeMethodBlock_deletes_preceding_member :
    removeMethodBlock ("/** Bar. */\nvoid bar() \x7b\x7d\n".toList ++ "void foo() \x7b\x7d\n".toList)
      "void foo(".toList = [] := by decide

/-- Overloads share their signature prefix, so a second excision removes the next one. -/
theorem removeMethodBlock_second_call_removes_overload :
    removeMethodBlock (removeMethodBlock "void foo(int a) \x7b\x7d\nvoid foo(String s) \x7b\x7d\n".toList
        "void foo(".toList) "void foo(".toList ≠
      removeMethodBlock "void foo(int a) \x7b\x7d\nvoid foo(String s) \x7b\x7d\n".toList "void foo(".toList := by
  decide

/-- The deletion never starts after the fragment. -/
theorem deletionStart_le (t : Text) (pos : Nat) : deletionStart t pos ≤ pos := by
  unfold deletionStart rfind
  split
  · next s hs =>
    have h1 := rfindFrom_add_length_le (by decide) hs
    split
    · next k hk =>
      have h2 := rfindFrom_add_length_le (by decide) hk
      simp only [List.length_take, List.length_singleton] at h1 h2
      omega
    · exact Nat.zero_le _
  · exact le_rfl

theorem deletionStart_of_no_javadoc {t : Text} {pos : Nat} (h : ¬ javadocOpen <:+: t.take pos) :
    deletionStart t pos = pos := by
  simp [deletionStart, rfind, rfindFrom_eq_none_iff.mpr h]

/-- Before the fragment, a Javadoc line starting a fresh line: the deletion starts there. -/
theorem deletionStart_of_javadoc_line {t P dl H₁ : Text} {pos : Nat}
    (hpre : t.take pos = P ++ dl ++ '\n' :: H₁) (hP : P = [] ∨ ∃ P', P = P' ++ ['\n'])
    (hdl : '\n' ∉ dl) (hj : javadocOpen <:+: dl) (hH : ¬ javadocOpen <:+: H₁) :
    deletionStart t pos = P.length := by
  have hsep : '\n' ∉ javadocOpen := by decide
  have hocc : javadocOpen <:+: dl ++ ['\n'] := hj.trans (List.infix_append [] _ _)
  obtain ⟨k, hk⟩ := Option.ne_none_iff_exists'.mp (mt rfindFrom_eq_none_iff.mp (not_not.mpr hocc))
  have hklen := rfindFrom_add_length_le (by decide) hk
  simp only [List.length_append, List.length_singleton,
    show javadocOpen.length = 3 from rfl] at hklen
  have hjd : rfind t javadocOpen pos = some (k + P.length) := by
    rw [rfind, hpre, rfindFrom_append_of_absent_after hsep hH, List.append_assoc,
      rfindFrom_append_of_occurs hocc, hk]
    rfl
  have htake : t.take (k + P.length) = P ++ dl.take k := by
    have hle : k + P.length ≤ pos := by
      have := congrArg List.length hpre
      simp only [List.length_take, List.length_append, List.length_cons] at this
      omega
    rw [← Nat.min_eq_left hle, ← List.take_take, hpre, Nat.add_comm, List.append_assoc,
      List.take_append, List.take_append_of_le_length (by omega)]
  have hnl : '\n' ∉ dl.take k := fun h => hdl (List.mem_of_mem_take h)
  rw [deletionStart, hjd]
  simp only [rfind, htake]
  rcases hP with rfl | ⟨P', rfl⟩
  · simp [rfindFrom_eq_none_iff.mpr (mt singleton_infix_iff.mp hnl)]
  · simp [rfindFrom_singleton_last hnl]

/-- The trimming loop consumes a line end. -/
theorem trimRun_lineEnd {E : Text} (hE : E = ['\n'] ∨ E = ['\r', '\n']) (S : Text) :
    trimRun (E ++ S) = E.length := by
  rcases hE with rfl | rfl <;> simp [trimRun]

theorem trimRun_le (s : Text) : trimRun s ≤ s.length := by
  induction s with
  | nil => exact le_rfl
  | cons c cs ih => simp only [trimRun, List.length_cons]; split_ifs <;> omega

/-- Cutting `t[a:b]` out around the only occurrence `pos` of `f` leaves no occurrence of `f`,
unless one forms across the cut. -/
theorem not_infix_cut {t f : Text} {a pos b : Nat} (ha : a ≤ pos) (hb : pos < b)
    (hlen : pos < t.length) (hfirst : ∀ k < pos, ¬ f <+: t.drop k)
    (hafter : ∀ j, pos < j → ¬ f <+: t.drop j)
    (hcut : ∀ s < a, a < s + f.length → ¬ f <+: (t.take a).drop s ++ t.drop b) :
    ¬ f <:+: t.take a ++ t.drop b := by
  rintro ⟨u, v, huv⟩
  have hocc : f <+: (t.take a ++ t.drop b).drop u.length := ⟨v, by rw [← huv]; simp⟩
  have hta : (t.take a).length = a := List.length_take_of_le (by omega)
  by_cases hf : f = []
  · exact hafter (pos + 1) (by omega) (by simp [hf])
  have hf0 : 0 < f.length := List.length_pos.2 hf
  rcases Nat.lt_or_ge u.length a with hs | hs
  · rw [List.drop_append_of_le_length (by omega)] at hocc
    by_cases hstr : a < u.length + f.length
    · exact hcut _ hs hstr hocc
    · have hpre : f <+: (t.take a).drop u.length :=
        List.prefix_of_prefix_length_le hocc (List.prefix_append _ _) (by simp [hta]; omega)
      rw [List.drop_take] at hpre
      exact hfirst u.length (by omega) (hpre.trans (List.take_prefix _ _))
  · rw [List.drop_append_eq_append_drop, List.drop_eq_nil_of_le (by omega), List.nil_append, hta,
      List.drop_drop] at hocc
    exact hafter _ (by omega) hocc

/-- A second excision is a no-op when the fragment occurs at most once and no occurrence of
it forms across the cut the first excision makes. -/
theorem removeMethodBlock_idempotent_of_single_occurrence (t f : Text)
    (hone : ∀ pos ∈ find t f 0, find t f (pos + 1) = none)
    (hcut : ∀ pos ∈ find t f 0, ∀ o ∈ find t ['{'] pos, ∀ e ∈ matchBlock t o,
      ∀ s < deletionStart t pos, deletionStart t pos < s + f.length →
        ¬ f <+: (t.take (deletionStart t pos)).drop s ++ t.drop (e + trimRun (t.drop e))) :
    removeMethodBlock (removeMethodBlock t f) f = removeMethodBlock t f := by
  cases hpos : find t f 0 with
  | none => rw [removeMethodBlock_of_find_none hpos, removeMethodBlock_of_find_none hpos]
  | some pos =>
    cases ho : find t ['{'] pos with
    | none => rw [removeMethodBlock_of_open_none hpos ho, removeMethodBlock_of_open_none hpos ho]
    | some o =>
      cases he : matchBlock t o with
      | none =>
        rw [removeMethodBlock_of_match_none hpos ho he, removeMethodBlock_of_match_none hpos ho he]
      | some e =>
        have hpo := le_of_find_eq_some ho
        have hoe := matchBlock_bounds he
        have hfirst := (findFrom_eq_some_iff.1 (by rwa [← find_zero])).2
        rw [removeMethodBlock_of_match_some hpos ho he]
        exact removeMethodBlock_of_absent (not_infix_cut (deletionStart_le t pos) (by omega)
          (by omega) hfirst (fun j hj => not_prefix_drop_of_find_eq_none (hone pos hpos) (by omega) hj)
          (hcut pos hpos o ho e he))

/-- A field, then a method whose signature holds the fragment once. -/
def fieldThenMethod : Text := "int x;\nvoid foo() \x7b\x7d\nint y;\n".toList

theorem removeMethodBlock_idempotent_of_single_occurrence_sample :
    (∀ pos ∈ find fieldThenMethod "void foo(".toList 0,
        find fieldThenMethod "void foo(".toList (pos + 1) = none) ∧
    (∀ pos ∈ find fieldThenMethod "void foo(".toList 0, ∀ o ∈ find fieldThenMethod ['{'] pos,
      ∀ e ∈ matchBlock fieldThenMethod o,
        ∀ s < deletionStart fieldThenMethod pos,
          deletionStart fieldThenMethod pos < s + "void foo(".toList.length →
          ¬ "void foo(".toList <+: (fieldThenMethod.take (deletionStart fieldThenMethod pos)).drop s ++
            fieldThenMethod.drop (e + trimRun (fieldThenMethod.drop e))) ∧
    removeMethodBlock (removeMethodBlock fieldThenMethod "void foo(".toList) "void foo(".toList =
      removeMethodBlock fieldThenMethod "void foo(".toList :=
  have hone : ∀ pos ∈ find fieldThenMethod "void foo(".toList 0,
      find fieldThenMethod "void foo(".toList (pos + 1) = none := by decide
  have hcut : ∀ pos ∈ find fieldThenMethod "void foo(".toList 0, ∀ o ∈ find fieldThenMethod ['{'] pos,
      ∀ e ∈ matchBlock fieldThenMethod o,
        ∀ s < deletionStart fieldThenMethod pos,
          deletionStart fieldThenMethod pos < s + "void foo(".toList.length →
          ¬ "void foo(".toList <+: (fieldThenMethod.take (deletionStart fieldThenMethod pos)).drop s ++
            fieldThenMethod.drop (e + trimRun (fieldThenMethod.drop e)) := by decide
  ⟨hone, hcut, removeMethodBlock_idempotent_of_single_occurrence _ _ hone hcut⟩

/-- Every excision that changes the text cuts one slice `t[a:b]` out of it, and the slice
holds the first occurrence of the fragment. -/
theorem removeMethodBlock_cuts_one_slice (t f : Text) :
    removeMethodBlock t f = t ∨
      ∃ pos a b, find t f 0 = some pos ∧ a ≤ pos ∧ pos < b ∧ b ≤ t.length ∧
        removeMethodBlock t f = t.take a ++ t.drop b := by
  cases hpos : find t f 0 with
  | none => exact .inl (removeMethodBlock_of_find_none hpos)
  | some pos =>
    cases ho : find t ['{'] pos with
    | none => exact .inl (removeMethodBlock_of_open_none hpos ho)
    | some o =>
      cases he : matchBlock t o with
      | none => exact .inl (removeMethodBlock_of_match_none hpos ho he)
      | some e =>
        have hpo := le_of_find_eq_some ho
        have hoe := matchBlock_bounds he
        have htrim := trimRun_le (t.drop e)
        rw [List.length_drop] at htrim
        exact .inr ⟨pos, _, _, rfl, deletionStart_le t pos, by omega, by omega,
          removeMethodBlock_of_match_some hpos ho he⟩

/-- The blanks the trimming loop consumes hold no brace. -/
theorem braceDiff_take_trimRun (s : Text) : braceDiff (s.take (trimRun s)) = 0 := by
  induction s with
  | nil => rfl
  | cons c cs ih =>
    simp only [trimRun]
    split_ifs with h1 h2
    · simp [h1, braceDelta]
    · rw [List.take_succ_cons, braceDiff_cons, ih]
      rcases h2 with rfl | rfl | rfl <;> rfl
    · rfl

/-- On a balanced text, an excision that finds its block keeps the balance exactly when the
deleted text before the opening brace holds as many `{` as `}`: the block itself and the
trimmed blanks are balanced. -/
theorem removeMethodBlock_balanced_iff {t f : Text} {pos o e : Nat} (ht : Balanced t)
    (hpos : find t f 0 = some pos) (ho : find t ['{'] pos = some o) (he : matchBlock t o = some e) :
    Balanced (removeMethodBlock t f) ↔ braceDiff (slice t (deletionStart t pos) o) = 0 := by
  have hao : deletionStart t pos ≤ o := (deletionStart_le t pos).trans (le_of_find_eq_some ho)
  obtain ⟨hoe, hel⟩ := matchBlock_bounds he
  have hblock : braceDiff (slice t o e) = 0 :=
    (count_eq_iff_braceDiff _).1 ((matchBlock_eq_some_iff (getElem?_of_find_singleton ho) e).1 he).2.1
  have htrim : braceDiff (slice t e (e + trimRun (t.drop e))) = 0 := by
    rw [slice, Nat.add_sub_cancel_left]
    exact braceDiff_take_trimRun _
  have heb := Nat.le_add_right e (trimRun (t.drop e))
  rw [← take_append_slice_append_drop t (hao.trans (hoe.le.trans heb))] at ht
  rw [removeMethodBlock_of_match_some hpos ho he, balanced_cut_iff ht, slice_append hao (by omega),
    slice_append hoe.le heb, braceDiff_append, braceDiff_append, hblock, htrim]
  simp

theorem removeMethodBlock_balanced_iff_sample :
    Balanced "void foo() \x7b\x7d\nint x;\n".toList ∧
    find "void foo() \x7b\x7d\nint x;\n".toList "void foo(".toList 0 = some 0 ∧
    find "void foo() \x7b\x7d\nint x;\n".toList ['{'] 0 = some 11 ∧
    matchBlock "void foo() \x7b\x7d\nint x;\n".toList 11 = some 13 ∧
    (Balanced (removeMethodBlock "void foo() \x7b\x7d\nint x;\n".toList "void foo(".toList) ↔
      braceDiff (slice "void foo() \x7b\x7d\nint x;\n".toList
        (deletionStart "void foo() \x7b\x7d\nint x;\n".toList 0) 11) = 0) :=
  have ht : Balanced "void foo() \x7b\x7d\nint x;\n".toList := by decide
  have hpos : find "void foo() \x7b\x7d\nint x;\n".toList "void foo(".toList 0 = some 0 := by decide
  have ho : find "void foo() \x7b\x7d\nint x;\n".toList ['{'] 0 = some 11 := by decide
  have he : matchBlock "void foo() \x7b\x7d\nint x;\n".toList 11 = some 13 := by decide
  ⟨ht, hpos, ho, he, removeMethodBlock_balanced_iff ht hpos ho he⟩

/-- The first occurrence of the fragment comes no later than any occurrence. -/
theorem find_le_of_occurs_at {t f : Text} {i : Nat} (h : f <+: t.drop i) :
    ∃ pos ≤ i, find t f 0 = some pos := by
  rw [find_zero]
  cases hf : findFrom f t with
  | none =>
    exact absurd (h.isInfix.trans (List.drop_suffix i t).isInfix) (findFrom_eq_none_iff.mp hf)
  | some pos =>
    refine ⟨pos, Nat.not_lt.mp fun hlt => ?_, rfl⟩
    exact (findFrom_eq_some_iff.mp hf).2 i hlt h

/-- Where `f` starts a suffix of `P ++ R` but does not occur in `P`, the part of the suffix
inside `P` is a beginning of `f`. -/
theorem drop_starts_fragment_of_absent {P R f : Text} {pos : Nat} (hP : ¬ f <:+: P)
    (h : f <+: (P ++ R).drop pos) : P.drop pos <+: f := by
  have hd : P.drop pos <+: (P ++ R).drop pos := by
    rw [List.drop_append_eq_append_drop]
    exact List.prefix_append _ _
  rcases Nat.lt_or_ge (P.drop pos).length f.length with hlt | hge
  · exact List.prefix_of_prefix_length_le hd h hlt.le
  · exact absurd ((List.prefix_of_prefix_length_le h hd hge).isInfix.trans
      (List.drop_suffix pos P).isInfix) hP

/-- A fragment naming a body-less declaration `D`. When nothing after `D` opens a brace,
the text is left as it is, so it ends with what follows `D`. Otherwise the deletion does
not stop at `D`: it runs through the first brace block after it. -/
theorem removeMethodBlock_bodyless_declaration {P ind H S f : Text} (hP : ¬ f <:+: P)
    (hind : ∀ c ∈ ind, c = ' ' ∨ c = '\t') (hf : f <:+: H) (hH : '{' ∉ H) :
    ('{' ∉ S → removeMethodBlock (P ++ (ind ++ H ++ [';', '\n']) ++ S) f =
        P ++ (ind ++ H ++ [';', '\n']) ++ S) ∧
    ∀ S₁ B S₂, S = S₁ ++ B ++ S₂ → '{' ∉ S₁ → IsBraceBlock B →
      ∃ k ≤ (P ++ (ind ++ H ++ [';', '\n'])).length,
        removeMethodBlock (P ++ (ind ++ H ++ [';', '\n']) ++ S) f =
          (P ++ (ind ++ H ++ [';', '\n'])).take k ++ S₂.drop (trimRun S₂) := by
  set D := ind ++ H ++ [';', '\n'] with hD
  have hDo : '{' ∉ D := by
    have : '{' ∉ ind := fun h => by rcases hind _ h with h | h <;> exact absurd h (by decide)
    simp [hD, this, hH]
  obtain ⟨u, v, rfl⟩ := hf
  have hocc : f <+: (P ++ D ++ S).drop (P.length + ind.length + u.length) := by
    rw [show P ++ D ++ S = (P ++ ind ++ u) ++ (f ++ (v ++ [';', '\n'] ++ S)) by simp [hD],
      List.drop_left' (by simp only [List.length_append])]
    exact List.prefix_append _ _
  obtain ⟨pos, hle, hpos⟩ := find_le_of_occurs_at hocc
  have hDlen : D.length = ind.length + u.length + f.length + v.length + 2 := by
    simp [hD]; omega
  have hdrop : (P ++ D ++ S).drop pos = (P.drop pos ++ D.drop (pos - P.length)) ++ S := by
    rw [List.append_assoc, List.drop_append_eq_append_drop,
      List.drop_append_of_le_length (by omega), List.append_assoc]
  have hX : '{' ∉ P.drop pos ++ D.drop (pos - P.length) := by
    have hpf : f <+: (P ++ (D ++ S)).drop pos := by
      rw [← List.append_assoc]
      exact (findFrom_eq_some_iff.mp (by rwa [← find_zero])).1
    have hsub := (drop_starts_fragment_of_absent hP hpf).subset
    simp only [List.mem_append, not_or]
    refine ⟨fun h => hH ?_, fun h => hDo (List.mem_of_mem_drop h)⟩
    simp [hsub h]
  have hposlen : pos ≤ (P ++ D ++ S).length := by simp only [List.length_append]; omega
  refine ⟨fun hS => removeMethodBlock_of_open_none hpos ?_, fun S₁ B S₂ hS hS₁ hB => ?_⟩
  · rw [find_of_le _ hposlen, hdrop,
      findFrom_singleton_eq_none_iff.mpr (List.not_mem_append hX hS)]
    rfl
  · subst hS
    obtain ⟨inner, rfl, -⟩ := id hB
    have hXlen : pos + (P.drop pos ++ D.drop (pos - P.length) ++ S₁).length =
        (P ++ D ++ S₁).length := by
      simp only [List.length_append, List.length_drop]; omega
    have ho : find (P ++ D ++ (S₁ ++ ('{' :: inner) ++ S₂)) ['{'] pos =
        some (P ++ D ++ S₁).length := by
      rw [find_of_le _ (by simp only [List.length_append] at hposlen ⊢; omega), hdrop,
        show P.drop pos ++ D.drop (pos - P.length) ++ (S₁ ++ ('{' :: inner) ++ S₂) =
          (P.drop pos ++ D.drop (pos - P.length) ++ S₁) ++ '{' :: (inner ++ S₂) by simp,
        findFrom_singleton_append (List.not_mem_append hX hS₁)]
      simp only [Option.map_some', ← hXlen]
      rw [Nat.add_comm]
    have ht : P ++ D ++ (S₁ ++ ('{' :: inner) ++ S₂) = (P ++ D ++ S₁) ++ ('{' :: inner) ++ S₂ := by
      simp
    have hrm := removeMethodBlock_of_brace_block hB (by rwa [ht] at hpos) (by rwa [ht] at ho)
    rw [← ht] at hrm
    have hk := (deletionStart_le (P ++ D ++ (S₁ ++ ('{' :: inner) ++ S₂)) pos).trans
      (by simp only [List.length_append]; omega : pos ≤ (P ++ D).length)
    exact ⟨_, hk, by rw [hrm, List.take_append_of_le_length hk]⟩

/-- A field and a body-less declaration of `foo`. -/
def fieldThenDeclaration : Text := "int x;\n".toList ++ ("  ".toList ++ "void foo()".toList ++ [';', '\n'])

/-- Followed by a closing brace, the text is kept; followed by a method `bar`, the deletion
runs through `bar`. -/
theorem removeMethodBlock_bodyless_declaration_sample :
    removeMethodBlock (fieldThenDeclaration ++ "\x7d\n".toList) "void foo(".toList =
      fieldThenDeclaration ++ "\x7d\n".toList ∧
    ∃ k ≤ fieldThenDeclaration.length,
      removeMethodBlock (fieldThenDeclaration ++ "void bar() \x7b\x7d\n".toList) "void foo(".toList =
        fieldThenDeclaration.take k ++ "\n".toList.drop (trimRun "\n".toList) :=
  have hB : IsBraceBlock "\x7b\x7d".toList := ⟨['}'], rfl, by unfold ClosesAt; decide⟩
  ⟨(removeMethodBlock_bodyless_declaration (by decide) (by decide) (by decide) (by decide)).1
      (by decide),
    (removeMethodBlock_bodyless_declaration (by decide) (by decide) (by decide) (by decide)).2
      "void bar() ".toList "\x7b\x7d".toList "\n".toList rfl (by decide) hB⟩

/-- After a body-less declaration, the next member's body is taken as the block. -/
theorem removeMethodBlock_runs_past_declaration :
    ¬ "void bar() \x7b\x7d\n".toList <:+
      removeMethodBlock ("void foo();\n".toList ++ "void bar() \x7b\x7d\n".toList) "void foo(".toList := by
  decide

/-- Excision removes exactly the member whose header holds the first occurrence of `f`,
byte for byte, provided no `/**` outside the member's own Javadoc line precedes it. -/
theorem removeMethodBlock_member {P doc H₁ H₂ B E S f : Text}
    (hP : P = [] ∨ ∃ P', P = P' ++ ['\n'])
    (hdoc : doc = [] ∨ ∃ dl, doc = dl ++ ['\n'] ∧ '\n' ∉ dl ∧ javadocOpen <:+: dl)
    (hH : '{' ∉ H₁ ++ f ++ H₂) (hHj : ¬ javadocOpen <:+: H₁ ++ f ++ H₂)
    (hB : IsBraceBlock B) (hE : E = ['\n'] ∨ E = ['\r', '\n'])
    (hfirst : ∀ k < (P ++ doc ++ H₁).length,
      ¬ f <+: (P ++ doc ++ H₁ ++ f ++ H₂ ++ B ++ E ++ S).drop k)
    (hPj : doc = [] → ¬ javadocOpen <:+: P) :
    removeMethodBlock (P ++ doc ++ H₁ ++ f ++ H₂ ++ B ++ E ++ S) f =
      P ++ (if doc = [] then H₁ else []) ++ S := by
  set A := P ++ doc ++ H₁ with hA
  have hH₁ : ¬ javadocOpen <:+: H₁ :=
    fun h => hHj (h.trans ((List.infix_append [] H₁ f).trans (List.infix_append [] _ H₂)))
  obtain ⟨inner, rfl, -⟩ := id hB
  have ht : A ++ f ++ H₂ ++ ('{' :: inner) ++ E ++ S =
      A ++ (f ++ H₂ ++ '{' :: (inner ++ E ++ S)) := by simp
  have hpos : find (A ++ f ++ H₂ ++ ('{' :: inner) ++ E ++ S) f 0 = some A.length := by
    rw [find_zero, ht, findFrom_append_of_no_early_match _ (by rwa [← ht]),
      findFrom_of_starts ((List.prefix_append f H₂).trans (List.prefix_append _ _))]
    simp
  have ho : find (A ++ f ++ H₂ ++ ('{' :: inner) ++ E ++ S) ['{'] A.length =
      some (A ++ f ++ H₂).length := by
    rw [find_of_le _ (by simp), ht, List.drop_left' rfl,
      findFrom_singleton_append (List.not_mem_append
        (fun h => hH (List.mem_append_left _ (List.mem_append_right _ h)))
        (fun h => hH (List.mem_append_right _ h)))]
    simp only [Option.map_some', List.length_append, Option.some.injEq]
    omega
  have ht' : A ++ f ++ H₂ ++ ('{' :: inner) ++ E ++ S = (A ++ f ++ H₂) ++ ('{' :: inner) ++ (E ++ S) := by
    simp
  have hrm := removeMethodBlock_of_brace_block hB (by rwa [ht'] at hpos) (by rwa [ht'] at ho)
  rw [← ht'] at hrm
  rw [hrm, trimRun_lineEnd hE, List.drop_left' rfl]
  have htakeA : (A ++ f ++ H₂ ++ ('{' :: inner) ++ E ++ S).take A.length = A := by
    rw [ht, List.take_left' rfl]
  rcases hdoc with rfl | ⟨dl, rfl, hdl, hj⟩
  · have hnj : ¬ javadocOpen <:+: A := by
      rcases hP with rfl | ⟨P', rfl⟩
      · simpa [hA] using hH₁
      · intro h
        have h' : javadocOpen <:+: P' ++ '\n' :: H₁ := by simpa [hA] using h
        rcases infix_of_infix_append_cons (by decide) h' with h | h
        · exact hPj rfl (h.trans (List.infix_append [] _ _))
        · exact hH₁ h
    rw [deletionStart_of_no_javadoc (by rwa [htakeA]), htakeA]
    simp [hA]
  · rw [deletionStart_of_javadoc_line (by rw [htakeA, hA]; simp) hP hdl hj hH₁,
      ht, List.take_append_of_le_length (by simp [hA]), hA,
      List.append_assoc, List.append_assoc, List.take_left' rfl]
    simp

theorem removeMethodBlock_member_sample :
    removeMethodBlock ("int a;\n".toList ++ [] ++ "  ".toList ++ "void foo(".toList ++ ") ".toList ++
        "\x7b\x7d".toList ++ ['\n'] ++ "int b;\n".toList) "void foo(".toList =
      "int a;\n".toList ++ (if ([] : Text) = [] then "  ".toList else []) ++ "int b;\n".toList :=
  removeMethodBlock_member (.inr ⟨"int a;".toList, rfl⟩) (.inl rfl) (by decide) (by decide)
    ⟨"\x7d".toList, rfl, by unfold ClosesAt; decide⟩ (.inl rfl) (by decide) fun _ => by decide

end MigrateFlowOnly
