import MigrateFlowOnly.ManagedContext

/-! The managed stripper on the input it is written for: a try statement laid out one clause
per line, with no other `try {` line between its `try` and the call. -/
namespace MigrateFlowOnly

/-- Lines whose braces, counted line by line, never close more than they opened and balance
at the end: the body of a block. A line `} catch (E e) {` balances on its own and is a body
line here. -/
def BlockBody (ls : List Text) : Prop :=
  (∀ k ≤ ls.length, 0 ≤ braceDiff (ls.take k).flatten) ∧ braceDiff ls.flatten = 0

/-- The line beginning a `catch` or `finally` clause, after its indentation. -/
def OpensClause (line : Text) : Prop :=
  "catch".toList <+: lstrip line ∨ "finally".toList <+: lstrip line

/-- The lines after a `try {` line through the line closing its last block. A block is a
body and a closing line; before each further clause come blank lines and the line that
opens it. -/
inductive TryBlocks : List Text → Prop
  | last {body : List Text} {close : Text} :
      BlockBody body → braceDiff close = -1 → TryBlocks (body ++ [close])
  | clause {body blanks rest : List Text} {close header : Text} :
      BlockBody body → braceDiff close = -1 → (∀ b ∈ blanks, strip b = []) →
      OpensClause header → braceDiff header = 1 → TryBlocks rest →
      TryBlocks (body ++ close :: blanks ++ header :: rest)

theorem scanLine_snd (d : Int) (s : Bool) (l : Text) :
    (scanLine d s l).2 = (s || decide ('{' ∈ l)) := by
  induction l generalizing d s with
  | nil => simp [scanLine]
  | cons ch rest ih =>
    by_cases h1 : ch = '{'
    · subst h1; simp [scanLine, ih]
    · simp only [scanLine, if_neg h1]
      split_ifs <;> simp [ih, Ne.symm h1]

theorem scanEnd_cons (d : Int) (s : Bool) (i : Nat) (l : Text) (X : List Text) :
    scanEnd d s i (l :: X) =
      if (s || decide ('{' ∈ l)) = true ∧ d + braceDiff l = 0 ∧ continuesClause X = false then
        i + 1
      else scanEnd (d + braceDiff l) (s || decide ('{' ∈ l)) (i + 1) X := by
  simp only [scanEnd, scanLine_fst, scanLine_snd]

/-- Lines at whose ends the depth stays positive are passed without a stop. -/
theorem scanEnd_append_of_pos {d : Int} {i : Nat} {L : List Text} (X : List Text)
    (hpos : ∀ k, 0 < k → k ≤ L.length → 0 < d + braceDiff (L.take k).flatten) :
    scanEnd d true i (L ++ X) = scanEnd (d + braceDiff L.flatten) true (i + L.length) X := by
  induction L generalizing d i with
  | nil => simp
  | cons l L ih =>
    have h1 : 0 < d + braceDiff l := by simpa using hpos 1 (by omega) (by simp)
    rw [List.cons_append, scanEnd_cons, if_neg (by omega), Bool.true_or,
      ih fun k hk hkL => by simpa [Int.add_assoc] using hpos (k + 1) (by omega) (by simp; omega)]
    rw [List.flatten_cons, braceDiff_append, List.length_cons, Int.add_assoc, Nat.add_assoc,
      Nat.add_comm 1 L.length]

theorem scanEnd_blockBody {body : List Text} (hb : BlockBody body) (i : Nat) (X : List Text) :
    scanEnd 1 true i (body ++ X) = scanEnd 1 true (i + body.length) X := by
  rw [scanEnd_append_of_pos X fun k _ hk => by have := hb.1 k hk; omega, hb.2, Int.add_zero]

theorem braceDiff_of_strip_eq_nil {b : Text} (h : strip b = []) : braceDiff b = 0 := by
  have hs := strip_eq_nil_iff.1 h
  have ho : '{' ∉ b := fun hm => absurd (hs _ hm) (by decide)
  have hc : '}' ∉ b := fun hm => absurd (hs _ hm) (by decide)
  simp [braceDiff, List.count_eq_zero_of_not_mem ho, List.count_eq_zero_of_not_mem hc]

theorem strip_ne_nil_of_opensClause {line : Text} (h : OpensClause line) : strip line ≠ [] := by
  intro hs
  have hl : lstrip line = [] := List.dropWhile_eq_nil_iff.2 (strip_eq_nil_iff.1 hs)
  rcases h with h | h <;> rw [hl] at h <;> exact absurd h (by decide)

/-- After blank lines, a line opening a clause makes the scan go on. -/
theorem continuesClause_of_opensClause {blanks : List Text} {header : Text} (X : List Text)
    (hb : ∀ b ∈ blanks, strip b = []) (hh : OpensClause header) :
    continuesClause (blanks ++ header :: X) = true := by
  have hdrop : (blanks ++ header :: X).dropWhile (fun l => decide (strip l = [])) = header :: X := by
    induction blanks with
    | nil => simp [strip_ne_nil_of_opensClause hh]
    | cons b bs ih =>
      rw [List.cons_append, List.dropWhile_cons_of_pos (by simpa using hb b (List.mem_cons_self b bs))]
      exact ih fun b' hb' => hb b' (List.mem_cons_of_mem b hb')
  simp only [continuesClause, hdrop, Bool.or_eq_true, decide_eq_true_eq]
  exact hh

/-- Between the closing line of a block and the line opening the next clause, the depth is
zero at every line end, but the scan goes on. -/
theorem scanEnd_blanks {blanks : List Text} {header : Text} (X : List Text) (i : Nat)
    (hb : ∀ b ∈ blanks, strip b = []) (hh : OpensClause header) :
    scanEnd 0 true i (blanks ++ header :: X) = scanEnd 0 true (i + blanks.length) (header :: X) := by
  induction blanks generalizing i with
  | nil => rfl
  | cons b bs ih =>
    have hbs : ∀ b' ∈ bs, strip b' = [] := fun b' h => hb b' (List.mem_cons_of_mem b h)
    rw [List.cons_append, scanEnd_cons, if_neg (by simp [continuesClause_of_opensClause X hbs hh]),
      braceDiff_of_strip_eq_nil (hb b (List.mem_cons_self b bs)), Bool.true_or, Int.add_zero,
      ih _ hbs, List.length_cons, Nat.add_assoc, Nat.add_comm 1 bs.length]

/-- Inside a try statement the scan stops exactly after the line closing its last block,
when no clause follows. -/
theorem scanEnd_tryBlocks {R : List Text} (hR : TryBlocks R) {S : List Text}
    (hS : continuesClause S = false) (i : Nat) :
    scanEnd 1 true i (R ++ S) = i + R.length := by
  induction hR generalizing i with
  | @last body close hb hc =>
    rw [List.append_assoc, scanEnd_blockBody hb, List.singleton_append, scanEnd_cons,
      if_pos (by simp [hc, hS])]
    simp only [List.length_append, List.length_singleton]
    omega
  | @clause body blanks rest close header hb hc hbl hh hhd _ ih =>
    have hcont := continuesClause_of_opensClause (rest ++ S) hbl hh
    simp only [List.append_assoc, List.cons_append]
    rw [scanEnd_blockBody hb, scanEnd_cons, if_neg (by simp [hcont]), hc, Bool.true_or,
      show (1 : Int) + -1 = 0 by rfl, scanEnd_blanks _ _ hbl hh, scanEnd_cons,
      if_neg (by simp [hhd]), hhd, Bool.true_or, show (0 : Int) + 1 = 1 by rfl, ih]
    simp only [List.length_append, List.length_cons]
    omega

/-- The `try {` line starts the depth at one. -/
theorem scanEnd_tryLine {tl : Text} (htry : tryOpen <:+: tl) (htl : braceDiff tl = 1) (i : Nat)
    (X : List Text) : scanEnd 0 false i (tl :: X) = scanEnd 1 true (i + 1) X := by
  have ho : '{' ∈ tl := htry.subset (by decide)
  rw [scanEnd_cons, if_neg (by simp [htl]), htl]
  simp [ho]

/-- A comment line without braces leaves the scan where it was. -/
theorem scanEnd_commentLine {c : Text} (ho : '{' ∉ c) (hc : '}' ∉ c) (i : Nat) (X : List Text) :
    scanEnd 0 false i (c :: X) = scanEnd 0 false (i + 1) X := by
  have hd : braceDiff c = 0 := by
    simp [braceDiff, List.count_eq_zero_of_not_mem ho, List.count_eq_zero_of_not_mem hc]
  rw [scanEnd_cons, if_neg (by simp [ho]), hd]
  simp [ho]

theorem firstCallIndex_append {A : List Text} {l : Text} (B : List Text)
    (hA : ∀ a ∈ A, ¬ qualifiedClearCall <:+: a) (hl : qualifiedClearCall <:+: l) :
    firstCallIndex (A ++ l :: B) = some A.length := by
  induction A with
  | nil => simp [firstCallIndex, hl]
  | cons a A ih =>
    simp [firstCallIndex, hA a (List.mem_cons_self a A),
      ih fun a' h => hA a' (List.mem_cons_of_mem a h)]

/-- The backward walk from `n` stops at the nearest line at or above `n` holding `try {`. -/
theorem walkBack_eq {lines : List Text} {j n : Nat} (hjn : j ≤ n)
    (hj : tryOpen <:+: lines.getD j [])
    (hno : ∀ m, j < m → m ≤ n → ¬ tryOpen <:+: lines.getD m []) : walkBack lines n = j := by
  induction n with
  | zero => rw [Nat.le_zero.1 hjn]; rfl
  | succ n ih =>
    rcases Nat.eq_or_lt_of_le hjn with rfl | hlt
    · rw [walkBack, if_pos hj]
    · rw [walkBack, if_neg (hno (n + 1) hlt le_rfl)]
      exact ih (by omega) fun m hm hmn => hno m hm (by omega)

theorem getD_append_cons_length (A B : List Text) (x : Text) : (A ++ x :: B).getD A.length [] = x := by
  rw [List.getD_eq_getElem?_getD, List.getElem?_append_right le_rfl, Nat.sub_self,
    List.getElem?_cons_zero, Option.getD_some]

theorem getD_mem_window (A W X : List Text) (x : Text) {r : Nat} (hr : r < W.length) :
    (A ++ x :: (W ++ X)).getD (A.length + 1 + r) [] ∈ W := by
  rw [List.getD_eq_getElem?_getD, List.getElem?_append_right (by omega),
    show A.length + 1 + r - A.length = r + 1 by omega, List.getElem?_cons_succ,
    List.getElem?_append_left hr, List.getElem?_eq_getElem hr]
  exact List.getElem_mem hr

/-- The line above the `try {` line: the `清理变更追踪` comment without braces, taken with the
statement, or else a line without that marker, or no line at all. -/
def CommentAbove (P C : List Text) : Prop :=
  (C = [] ∧ ∀ P' l, P = P' ++ [l] → ¬ changeTrackingMarker <:+: l) ∨
    ∃ c, C = [c] ∧ changeTrackingMarker <:+: c ∧ '{' ∉ c ∧ '}' ∉ c

section Layout

variable {P C M N S : List Text} {tl cl : Text}

/-- The walk back from the call line stops at the statement's `try {` line. -/
theorem walkBack_try_statement (X : List Text) (htry : tryOpen <:+: tl)
    (hwalk : ∀ l ∈ M ++ [cl], ¬ tryOpen <:+: l) :
    walkBack (P ++ C ++ tl :: (M ++ cl :: X)) (P.length + C.length + 1 + M.length) =
      P.length + C.length := by
  have hwin : P ++ C ++ tl :: (M ++ cl :: X) = (P ++ C) ++ tl :: ((M ++ [cl]) ++ X) := by simp
  refine walkBack_eq (by omega) ?_ fun m hm hmn => ?_
  · rw [hwin, ← List.length_append, getD_append_cons_length]
    exact htry
  · obtain ⟨r, rfl⟩ : ∃ r, m = (P ++ C).length + 1 + r :=
      ⟨m - (P.length + C.length) - 1, by simp only [List.length_append]; omega⟩
    have hr : r < (M ++ [cl]).length := by
      simp only [List.length_append, List.length_singleton] at hmn ⊢
      omega
    rw [hwin]
    exact hwalk _ (getD_mem_window _ _ _ _ hr)

/-- The removed range starts at the comment line when it carries the marker, else at the
`try {` line: either way, right after `P`. -/
theorem startIndex_of_commentAbove (hC : CommentAbove P C) (rest : List Text) :
    (if 1 ≤ P.length + C.length ∧
        changeTrackingMarker <:+: (P ++ C ++ tl :: rest).getD (P.length + C.length - 1) []
      then P.length + C.length - 1 else P.length + C.length) = P.length := by
  rcases hC with ⟨rfl, hP⟩ | ⟨c, rfl, hc, -, -⟩
  · rcases P.eq_nil_or_concat with rfl | ⟨P', l, hPl⟩
    · simp
    · rw [List.concat_eq_append] at hPl
      subst hPl
      rw [if_neg fun ⟨_, hm⟩ => hP P' l rfl (by
        rwa [show (P' ++ [l]).length + ([] : List Text).length - 1 = P'.length by simp,
          show P' ++ [l] ++ [] ++ tl :: rest = P' ++ l :: (tl :: rest) by simp,
          getD_append_cons_length] at hm)]
      simp
  · have hm : changeTrackingMarker <:+:
        (P ++ [c] ++ tl :: rest).getD (P.length + [c].length - 1) [] := by
      rw [show P.length + [c].length - 1 = P.length by simp,
        show P ++ [c] ++ tl :: rest = P ++ c :: (tl :: rest) by simp, getD_append_cons_length]
      exact hc
    rw [if_pos ⟨by simp, hm⟩]
    simp

/-- From the start of the removed range the scan ends after the statement's last line. -/
theorem scanEnd_try_statement {R : List Text} (hC : CommentAbove P C) (htry : tryOpen <:+: tl)
    (htl : braceDiff tl = 1) (hR : TryBlocks R) (hS : continuesClause S = false) :
    scanEnd 0 false P.length (C ++ tl :: (R ++ S)) = P.length + C.length + 1 + R.length := by
  rcases hC with ⟨rfl, -⟩ | ⟨c, rfl, -, ho, hc⟩
  · rw [List.nil_append, scanEnd_tryLine htry htl, scanEnd_tryBlocks hR hS]
    rfl
  · rw [List.singleton_append, scanEnd_commentLine ho hc, scanEnd_tryLine htry htl,
      scanEnd_tryBlocks hR hS]
    rfl

/-- The stripper's decisions on a try statement around the first call: it removes from the
comment line (or the `try {` line) through the line closing the statement's last block. -/
theorem managedPlan_try_statement (hC : CommentAbove P C) (htry : tryOpen <:+: tl)
    (htl : braceDiff tl = 1) (hR : TryBlocks (M ++ cl :: N)) (hS : continuesClause S = false)
    (hcl : qualifiedClearCall <:+: cl) (hwalk : ∀ l ∈ M ++ [cl], ¬ tryOpen <:+: l)
    (hfirst : ∀ l ∈ P ++ C ++ tl :: M, ¬ qualifiedClearCall <:+: l) :
    managedPlan (P ++ C ++ tl :: (M ++ cl :: N) ++ S) =
      .dropBlock P.length (P.length + C.length + 1 + (M ++ cl :: N).length) := by
  rw [show P ++ C ++ tl :: (M ++ cl :: N) ++ S = P ++ C ++ tl :: (M ++ cl :: (N ++ S)) by simp]
  have hcall : firstCallIndex (P ++ C ++ tl :: (M ++ cl :: (N ++ S))) =
      some (P.length + C.length + 1 + M.length) := by
    rw [show P ++ C ++ tl :: (M ++ cl :: (N ++ S)) = (P ++ C ++ tl :: M) ++ cl :: (N ++ S) by simp,
      firstCallIndex_append _ hfirst hcl]
    simp only [List.length_append, List.length_cons, Option.some.injEq]
    omega
  have hfall : ¬ (P.length + C.length = 0 ∧
      ¬ tryOpen <:+: (P ++ C ++ tl :: (M ++ cl :: (N ++ S))).getD 0 []) := fun ⟨h0, hno⟩ => hno (by
    rwa [show 0 = (P ++ C).length by simp only [List.length_append]; omega,
      getD_append_cons_length])
  have hscan := scanEnd_try_statement hC htry htl hR hS
  rw [show (M ++ cl :: N) ++ S = M ++ cl :: (N ++ S) by simp] at hscan
  simp only [managedPlan, hcall, walkBack_try_statement (N ++ S) htry hwalk, if_neg hfall,
    startIndex_of_commentAbove hC]
  rw [List.append_assoc, List.drop_left' rfl, hscan]

/-- On a try statement around the first call, laid out as the stripper expects and with no
other `try {` line from the statement's down to the call, the stripper removes exactly the
statement and the comment line above it: the lines before and after it survive. -/
theorem stripClearAllTrackingInManagedThreadContext_try_statement {t : Text}
    (hlines : splitLines t = P ++ C ++ tl :: (M ++ cl :: N) ++ S) (hC : CommentAbove P C)
    (htry : tryOpen <:+: tl) (htl : braceDiff tl = 1) (hR : TryBlocks (M ++ cl :: N))
    (hS : continuesClause S = false) (hcl : qualifiedClearCall <:+: cl)
    (hwalk : ∀ l ∈ M ++ [cl], ¬ tryOpen <:+: l)
    (hfirst : ∀ l ∈ P ++ C ++ tl :: M, ¬ qualifiedClearCall <:+: l) :
    stripClearAllTrackingInManagedThreadContext t = (P ++ S).flatten := by
  have htake : (P ++ C ++ tl :: (M ++ cl :: N) ++ S).take P.length = P := by simp
  have hdrop : (P ++ C ++ tl :: (M ++ cl :: N) ++ S).drop
      (P.length + C.length + 1 + (M ++ cl :: N).length) = S :=
    List.drop_left' (by simp only [List.length_append, List.length_cons]; omega)
  rw [stripClearAllTrackingInManagedThreadContext, hlines,
    managedPlan_try_statement hC htry htl hR hS hcl hwalk hfirst]
  simp only [htake, hdrop]

end Layout

theorem stripClearAllTrackingInManagedThreadContext_try_statement_sample :
    stripClearAllTrackingInManagedThreadContext
        ("void m() \x7b\n  // 清理变更追踪\n  try \x7b\n".toList ++
          "    com.syy.taskflowinsight.api.TFI.clearAllTracking();\n".toList ++
          "  \x7d catch (Exception e) \x7b\n  \x7d\n\x7d\n".toList) =
      (["void m() \x7b\n".toList] ++ ["\x7d\n".toList]).flatten :=
  @stripClearAllTrackingInManagedThreadContext_try_statement ["void m() \x7b\n".toList]
    ["  // 清理变更追踪\n".toList] [] ["  \x7d catch (Exception e) \x7b\n".toList, "  \x7d\n".toList]
    ["\x7d\n".toList] "  try \x7b\n".toList
    "    com.syy.taskflowinsight.api.TFI.clearAllTracking();\n".toList _ (by decide)
    (.inr ⟨_, rfl, by decide, by decide, by decide⟩) (by decide) (by decide)
    (@TryBlocks.last ["    com.syy.taskflowinsight.api.TFI.clearAllTracking();\n".toList,
      "  \x7d catch (Exception e) \x7b\n".toList] "  \x7d\n".toList (by unfold BlockBody; decide)
      (by decide))
    (by decide) (by decide) (by decide) (by decide)

end MigrateFlowOnly
