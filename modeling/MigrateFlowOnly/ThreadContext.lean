import MigrateFlowOnly.BraceMatch

/-! `_strip_clear_all_tracking_in_thread_context`: every line holding the call is dropped,
and a `清理ChangeTracker` comment on top of the lines kept so far goes with it. -/
namespace MigrateFlowOnly

/-- `"TFI.clearAllTracking()"`. -/
def clearCall : Text := "TFI.clearAllTracking()".toList

/-- `"com.syy.taskflowinsight.api.TFI.clearAllTracking()"`. -/
def qualifiedClearCall : Text := "com.syy.taskflowinsight.api.TFI.clearAllTracking()".toList

/-- The comment text `清理ChangeTracker` that announces the call. -/
def changeTrackerMarker : Text := "清理ChangeTracker".toList

/-- The loop's test: the line holds the call in either spelling. -/
def isClearCallLine (line : Text) : Prop := clearCall <:+: line ∨ qualifiedClearCall <:+: line

instance : DecidablePred isClearCallLine := fun _ => inferInstanceAs (Decidable (_ ∨ _))

theorem isClearCallLine_iff (line : Text) : isClearCallLine line ↔ clearCall <:+: line :=
  ⟨fun h => h.elim id ((show clearCall <:+: qualifiedClearCall by decide).trans), Or.inl⟩

/-- `if out and "清理ChangeTracker" in out[-1]: out.pop()`, with `out` kept as a stack. -/
def popMarker : List Text → List Text
  | top :: below => if changeTrackerMarker <:+: top then below else top :: below
  | [] => []

/-- The `for line in lines` loop; `out` is a stack whose head is `out[-1]`. -/
def stripThreadLoop : List Text → List Text → List Text
  | out, [] => out
  | out, line :: rest =>
    if isClearCallLine line then stripThreadLoop (popMarker out) rest
    else stripThreadLoop (line :: out) rest

/-- `_strip_clear_all_tracking_in_thread_context(java_text)`. -/
def stripClearAllTrackingInThreadContext (javaText : Text) : Text :=
  (stripThreadLoop [] (splitLines javaText)).reverse.flatten

theorem popMarker_sublist : ∀ out : List Text, (popMarker out).Sublist out
  | [] => .slnil
  | top :: below => by
    rw [popMarker]
    split_ifs
    · exact List.sublist_cons_self top below
    · exact List.Sublist.refl _

theorem popMarker_subset (out : List Text) : ∀ l ∈ popMarker out, l ∈ out :=
  fun _ hl => (popMarker_sublist out).subset hl

/-- Kept lines lack the call, and every kept line below the top ends a line. -/
theorem stripThreadLoop_kept : ∀ (out ls : List Text),
    (∀ l ∈ out, ¬ clearCall <:+: l ∧ EndsLine l) → (∀ l ∈ ls.dropLast, EndsLine l) →
    (∀ l ∈ stripThreadLoop out ls, ¬ clearCall <:+: l) ∧
      ∀ l ∈ (stripThreadLoop out ls).tail, EndsLine l
  | out, [], hout, _ => by
    refine ⟨fun l hl => (hout l hl).1, fun l hl => (hout l (List.mem_of_mem_tail hl)).2⟩
  | out, line :: rest, hout, hls => by
    have hrest : ∀ l ∈ rest.dropLast, EndsLine l := by
      cases rest with
      | nil => simp
      | cons r rs => exact fun l hl => hls l (by simp [hl])
    simp only [stripThreadLoop]
    split_ifs with hc
    · exact stripThreadLoop_kept _ rest (fun l hl => hout l (popMarker_subset out l hl)) hrest
    · have hline : ¬ clearCall <:+: line := fun h => hc ((isClearCallLine_iff line).mpr h)
      cases rest with
      | nil =>
        simp only [stripThreadLoop, List.tail_cons, List.mem_cons]
        exact ⟨fun l hl => hl.elim (fun h => h ▸ hline) (fun h => (hout l h).1),
          fun l hl => (hout l hl).2⟩
      | cons r rs =>
        refine stripThreadLoop_kept _ (r :: rs) (fun l hl => ?_) hrest
        rcases List.mem_cons.mp hl with rfl | hl
        · exact ⟨hline, hls l (by simp)⟩
        · exact hout l hl

theorem clearCall_not_infix_stripThread (t : Text) :
    ¬ clearCall <:+: stripClearAllTrackingInThreadContext t := by
  obtain ⟨hcall, hends⟩ := stripThreadLoop_kept [] (splitLines t) (by simp) splitLines_endsLine
  unfold stripClearAllTrackingInThreadContext
  refine not_infix_flatten (by decide) (by decide) (fun l hl => hcall l (List.mem_reverse.mp hl)) ?_
  cases h : stripThreadLoop [] (splitLines t) with
  | nil => simp
  | cons top below =>
    rw [h] at hends
    simpa [List.dropLast_concat] using hends

/-- The stripped text holds no `TFI.clearAllTracking()`, neither inside a kept line nor
across two of them. -/
theorem stripClearAllTrackingInThreadContext_no_call (t : Text) :
    ¬ clearCall <:+: stripClearAllTrackingInThreadContext t :=
  clearCall_not_infix_stripThread t

/-- Over lines that hold no call the loop keeps everything. -/
theorem stripThreadLoop_of_no_call : ∀ (out ls : List Text), (∀ l ∈ ls, ¬ isClearCallLine l) →
    stripThreadLoop out ls = ls.reverse ++ out
  | out, [], _ => rfl
  | out, line :: rest, h => by
    rw [stripThreadLoop, if_neg (h line (List.mem_cons_self _ _)),
      stripThreadLoop_of_no_call _ rest fun l hl => h l (List.mem_cons_of_mem _ hl)]
    simp

/-- Stripping a second time changes nothing: no line of the output holds the call. -/
theorem stripClearAllTrackingInThreadContext_idempotent (t : Text) :
    stripClearAllTrackingInThreadContext (stripClearAllTrackingInThreadContext t) =
      stripClearAllTrackingInThreadContext t := by
  have hno : ∀ l ∈ splitLines (stripClearAllTrackingInThreadContext t), ¬ isClearCallLine l :=
    fun l hl hc => clearCall_not_infix_stripThread t (((isClearCallLine_iff l).1 hc).trans
      (flatten_splitLines (stripClearAllTrackingInThreadContext t) ▸ List.infix_of_mem_flatten hl))
  show (stripThreadLoop [] (splitLines (stripClearAllTrackingInThreadContext t))).reverse.flatten = _
  rw [stripThreadLoop_of_no_call [] _ hno, List.append_nil, List.reverse_reverse, flatten_splitLines]

/-- `ks` is `ls` with some lines deleted, each deleted line allowed by `D` given the lines
after it. -/
inductive DeletesOnly (D : Text → List Text → Prop) : List Text → List Text → Prop
  | nil : DeletesOnly D [] []
  | keep (l : Text) {ls ks : List Text} : DeletesOnly D ls ks → DeletesOnly D (l :: ls) (l :: ks)
  | drop (l : Text) {ls ks : List Text} : D l ls → DeletesOnly D ls ks → DeletesOnly D (l :: ls) ks

section DeletesOnly

variable {D : Text → List Text → Prop}

/-- Deletions justified in a prefix stay justified when more lines follow. -/
theorem DeletesOnly.append (hmono : ∀ l r r', D l r → D l (r ++ r')) {ls ks ls' ks' : List Text}
    (h : DeletesOnly D ls ks) (h' : DeletesOnly D ls' ks') :
    DeletesOnly D (ls ++ ls') (ks ++ ks') := by
  induction h with
  | nil => simpa using h'
  | keep l _ ih => exact .keep l ih
  | drop l hl _ ih => exact .drop l (hmono _ _ _ hl) ih

/-- Deleting lines that hold as many `{` as `}` keeps a balanced text balanced, whatever
text stands before them. -/
theorem DeletesOnly.balanced {ls ks : List Text} (h : DeletesOnly D ls ks)
    (hD : ∀ l ∈ ls, ∀ r, D l r → braceDiff l = 0) :
    ∀ P : Text, Balanced (P ++ ls.flatten) → Balanced (P ++ ks.flatten) := by
  induction h with
  | nil => exact fun _ hP => hP
  | keep l _ ih =>
    intro P hP
    simpa using ih (fun x hx => hD x (List.mem_cons_of_mem l hx)) (P ++ l) (by simpa using hP)
  | drop l hl _ ih =>
    intro P hP
    rw [List.flatten_cons, ← List.append_assoc] at hP
    exact ih (fun x hx => hD x (List.mem_cons_of_mem l hx)) P
      ((balanced_cut_iff hP).2 (hD l (List.mem_cons_self l _) _ hl))

end DeletesOnly

/-- What the stripper deletes: call lines, and a marker line followed, after a run of
marker lines without the call, by a call line. -/
def MarkerRunBeforeCall (l : Text) (after : List Text) : Prop :=
  clearCall <:+: l ∨ (changeTrackerMarker <:+: l ∧ ∃ ms n rest, after = ms ++ n :: rest ∧
    (∀ m ∈ ms, changeTrackerMarker <:+: m ∧ ¬ clearCall <:+: m) ∧ clearCall <:+: n)

theorem markerRunBeforeCall_append {l : Text} {r : List Text} (r' : List Text)
    (h : MarkerRunBeforeCall l r) : MarkerRunBeforeCall l (r ++ r') := by
  rcases h with h | ⟨hm, ms, n, rest, rfl, hms, hn⟩
  · exact .inl h
  · exact .inr ⟨hm, ms, n, rest ++ r', by simp, hms, hn⟩

/-- When every line before a call line `c` was deleted, the run up to the first call is
made of marker lines. -/
theorem markerRun_of_all_deleted {ls : List Text} {c : Text} (hc : clearCall <:+: c)
    (h : DeletesOnly MarkerRunBeforeCall ls []) :
    ∃ ms n rest, ls ++ [c] = ms ++ n :: rest ∧
      (∀ m ∈ ms, changeTrackerMarker <:+: m ∧ ¬ clearCall <:+: m) ∧ clearCall <:+: n := by
  generalize hk : ([] : List Text) = ks at h
  induction h with
  | nil => exact ⟨[], c, [], rfl, by simp, hc⟩
  | keep l _ _ => cases hk
  | drop l hl _ ih =>
    by_cases hl' : clearCall <:+: l
    · exact ⟨[], l, _, rfl, by simp, hl'⟩
    · obtain ⟨ms, n, rest, he, hms, hn⟩ := ih hk
      have hm : changeTrackerMarker <:+: l := hl.resolve_left hl' |>.1
      refine ⟨l :: ms, n, rest, by simp [he], ?_, hn⟩
      intro m hm'
      rcases List.mem_cons.mp hm' with rfl | hm'
      · exact ⟨hm, hl'⟩
      · exact hms m hm'

/-- Popping the marker on top of the kept lines at a call line keeps the deletions
justified. -/
theorem deletesOnly_pop {pre ks : List Text} {X c : Text} (hX : changeTrackerMarker <:+: X)
    (hc : clearCall <:+: c) (h : DeletesOnly MarkerRunBeforeCall pre (ks ++ [X])) :
    DeletesOnly MarkerRunBeforeCall (pre ++ [c]) ks := by
  generalize hk : ks ++ [X] = k at h
  induction h generalizing ks with
  | nil => simp at hk
  | keep l h' ih =>
    cases ks with
    | nil =>
      obtain ⟨rfl, rfl⟩ := List.cons_eq_cons.mp hk.symm
      obtain ⟨ms, n, rest, he, hms, hn⟩ := markerRun_of_all_deleted hc h'
      exact .drop _ (.inr ⟨hX, ms, n, rest, he, hms, hn⟩)
        (h'.append (fun _ _ r' h => markerRunBeforeCall_append r' h) (.drop c (.inl hc) .nil))
    | cons k ks =>
      obtain ⟨rfl, hk'⟩ := List.cons_eq_cons.mp hk
      exact .keep _ (ih hk')
  | drop l hl _ ih => exact .drop l (markerRunBeforeCall_append [c] hl) (ih hk)

/-- The loop keeps the deletions justified, one line at a time. -/
theorem stripThreadLoop_deletesOnly : ∀ (pre out ls : List Text),
    DeletesOnly MarkerRunBeforeCall pre out.reverse →
      DeletesOnly MarkerRunBeforeCall (pre ++ ls) (stripThreadLoop out ls).reverse
  | pre, out, [], h => by simpa [stripThreadLoop] using h
  | pre, out, line :: rest, h => by
    have hmono : ∀ l r r', MarkerRunBeforeCall l r → MarkerRunBeforeCall l (r ++ r') :=
      fun _ _ r' h => markerRunBeforeCall_append r' h
    rw [show pre ++ line :: rest = (pre ++ [line]) ++ rest by simp]
    simp only [stripThreadLoop]
    split_ifs with hc
    · have hc' := (isClearCallLine_iff line).mp hc
      apply stripThreadLoop_deletesOnly _ _ rest
      cases out with
      | nil => simpa [popMarker] using h.append hmono (.drop line (.inl hc') .nil)
      | cons top below =>
        simp only [popMarker]
        split_ifs with hm
        · exact deletesOnly_pop hm hc' (by simpa using h)
        · simpa using h.append hmono (.drop line (.inl hc') .nil)
    · exact stripThreadLoop_deletesOnly _ _ rest (by simpa using h.append hmono (.keep line .nil))

/-- The stripped text of a balanced text is balanced when every line holding the call or the
`清理ChangeTracker` marker holds as many `{` as `}`. -/
theorem stripClearAllTrackingInThreadContext_balanced {t : Text} (ht : Balanced t)
    (hlines : ∀ l ∈ splitLines t, clearCall <:+: l ∨ changeTrackerMarker <:+: l → braceDiff l = 0) :
    Balanced (stripClearAllTrackingInThreadContext t) := by
  have hd := stripThreadLoop_deletesOnly [] [] (splitLines t) .nil
  rw [List.nil_append] at hd
  simpa using hd.balanced (fun l hl _ hD => hlines l hl (hD.imp_right And.left)) []
    (by rwa [List.nil_append, flatten_splitLines])

/-- A method whose body is a marker comment and the call. -/
def markedCallMethod : Text :=
  "void m() \x7b\n// 清理ChangeTracker\nTFI.clearAllTracking();\n\x7d\n".toList

theorem stripClearAllTrackingInThreadContext_balanced_sample :
    Balanced markedCallMethod ∧
    (∀ l ∈ splitLines markedCallMethod,
      clearCall <:+: l ∨ changeTrackerMarker <:+: l → braceDiff l = 0) ∧
    Balanced (stripClearAllTrackingInThreadContext markedCallMethod) :=
  have ht : Balanced markedCallMethod := by decide
  have hlines : ∀ l ∈ splitLines markedCallMethod,
      clearCall <:+: l ∨ changeTrackerMarker <:+: l → braceDiff l = 0 := by decide
  ⟨ht, hlines, stripClearAllTrackingInThreadContext_balanced ht hlines⟩

/-- The lines the marker-above-call rule keeps: a call line goes, and so does a marker line
directly above a call line. -/
def keepIntended : List Text → List Text
  | [] => []
  | [l] => if isClearCallLine l then [] else [l]
  | l :: n :: rest =>
    if isClearCallLine l ∨ (changeTrackerMarker <:+: l ∧ isClearCallLine n) then
      keepIntended (n :: rest)
    else l :: keepIntended (n :: rest)

/-- No call line directly follows another. -/
def NoAdjacentCalls : List Text → Prop
  | l :: n :: rest => ¬ (isClearCallLine l ∧ isClearCallLine n) ∧ NoAdjacentCalls (n :: rest)
  | _ => True

instance decNoAdjacentCalls : DecidablePred NoAdjacentCalls
  | [] => isTrue trivial
  | [_] => isTrue trivial
  | _ :: n :: rest =>
    haveI := decNoAdjacentCalls (n :: rest)
    inferInstanceAs (Decidable (_ ∧ _))

theorem NoAdjacentCalls.tail {l : Text} {ls : List Text} (h : NoAdjacentCalls (l :: ls)) :
    NoAdjacentCalls ls := by
  cases ls with
  | nil => trivial
  | cons n rest => exact h.2

/-- After a call line, in a text without adjacent calls, comes no call line. -/
theorem NoAdjacentCalls.head_after_call {l : Text} {ls : List Text} (h : NoAdjacentCalls (l :: ls))
    (hl : isClearCallLine l) : ∀ r ∈ ls.head?, ¬ isClearCallLine r := by
  intro r hr
  cases ls with
  | nil => cases hr
  | cons r' rs =>
    obtain rfl : r' = r := Option.some.inj hr
    exact fun h' => h.1 ⟨hl, h'⟩

theorem keepIntended_of_call {n : Text} (rest : List Text) (hn : isClearCallLine n) :
    keepIntended (n :: rest) = keepIntended rest := by
  cases rest with
  | nil => simp [keepIntended, hn]
  | cons r rs => simp [keepIntended, hn]

/-- Without adjacent call lines, the top of the kept lines at a call line is the line right
above it, so the loop follows the marker-above-call rule. -/
theorem stripThreadLoop_intended : ∀ (out ls : List Text), NoAdjacentCalls ls →
    (∀ l ∈ ls.head?, ¬ isClearCallLine l) →
    stripThreadLoop out ls = (keepIntended ls).reverse ++ out
  | out, [], _, _ => rfl
  | out, [l], _, hl => by
    have hl' : ¬ isClearCallLine l := hl l rfl
    simp [stripThreadLoop, keepIntended, hl']
  | out, l :: n :: rest, hadj, hl => by
    have hl' : ¬ isClearCallLine l := hl l rfl
    have hrest : NoAdjacentCalls (n :: rest) := hadj.tail
    by_cases hn : isClearCallLine n
    · have hr : NoAdjacentCalls rest := hrest.tail
      have hrh := hrest.head_after_call hn
      rw [stripThreadLoop, if_neg hl', stripThreadLoop, if_pos hn, keepIntended,
        keepIntended_of_call rest hn, popMarker]
      by_cases hm : changeTrackerMarker <:+: l
      · rw [if_pos hm, if_pos (.inr ⟨hm, hn⟩)]
        exact stripThreadLoop_intended out rest hr hrh
      · rw [if_neg hm, if_neg fun h => h.elim hl' fun h => hm h.1,
          stripThreadLoop_intended _ rest hr hrh]
        simp
    · have hkeep : ¬ (isClearCallLine l ∨ (changeTrackerMarker <:+: l ∧ isClearCallLine n)) :=
        fun h => h.elim hl' fun h => hn h.2
      rw [stripThreadLoop, if_neg hl', keepIntended, if_neg hkeep,
        stripThreadLoop_intended _ (n :: rest) hrest fun _ h => Option.some.inj h ▸ hn]
      simp

/-- When no call line directly follows another, the stripper deletes exactly the call lines
and each marker line directly above a call line. -/
theorem stripClearAllTrackingInThreadContext_of_no_adjacent_calls (t : Text)
    (h : NoAdjacentCalls (splitLines t)) :
    stripClearAllTrackingInThreadContext t = (keepIntended (splitLines t)).flatten := by
  unfold stripClearAllTrackingInThreadContext
  cases hs : splitLines t with
  | nil => rfl
  | cons l rest =>
    rw [hs] at h
    by_cases hl : isClearCallLine l
    · rw [stripThreadLoop, if_pos hl, keepIntended_of_call rest hl, popMarker,
        stripThreadLoop_intended [] rest h.tail (h.head_after_call hl)]
      simp
    · rw [stripThreadLoop_intended [] (l :: rest) h fun _ h' => Option.some.inj h' ▸ hl]
      simp

theorem stripClearAllTrackingInThreadContext_of_no_adjacent_calls_sample :
    NoAdjacentCalls (splitLines "a\n// 清理ChangeTracker\nTFI.clearAllTracking();\nb\n".toList) ∧
    stripClearAllTrackingInThreadContext "a\n// 清理ChangeTracker\nTFI.clearAllTracking();\nb\n".toList =
      (keepIntended (splitLines "a\n// 清理ChangeTracker\nTFI.clearAllTracking();\nb\n".toList)).flatten :=
  ⟨by decide, stripClearAllTrackingInThreadContext_of_no_adjacent_calls _ (by decide)⟩

/-- The loop deletes at least what the marker-above-call rule deletes, whatever the stack it
starts from. -/
theorem stripThreadLoop_sublist_keepIntended : ∀ (out ls : List Text),
    (stripThreadLoop out ls).reverse.Sublist (out.reverse ++ keepIntended ls)
  | out, [] => by simp [stripThreadLoop, keepIntended]
  | out, [l] => by
    by_cases hl : isClearCallLine l
    · simpa [stripThreadLoop, keepIntended, hl] using (popMarker_sublist out).reverse
    · simp [stripThreadLoop, keepIntended, hl]
  | out, l :: n :: rest => by
    by_cases hl : isClearCallLine l
    · rw [stripThreadLoop, if_pos hl, keepIntended, if_pos (.inl hl)]
      exact (stripThreadLoop_sublist_keepIntended _ (n :: rest)).trans
        ((popMarker_sublist out).reverse.append_right _)
    · by_cases hmn : changeTrackerMarker <:+: l ∧ isClearCallLine n
      · rw [stripThreadLoop, if_neg hl, stripThreadLoop, if_pos hmn.2, popMarker, if_pos hmn.1,
          keepIntended, if_pos (.inr hmn), keepIntended_of_call rest hmn.2]
        exact stripThreadLoop_sublist_keepIntended out rest
      · rw [stripThreadLoop, if_neg hl, keepIntended, if_neg (not_or.2 ⟨hl, hmn⟩)]
        simpa using stripThreadLoop_sublist_keepIntended (l :: out) (n :: rest)

/-- The stripper deletes every line the marker-above-call rule deletes, whatever the input:
every call line, and every marker line directly above a call line, is gone from its output. -/
theorem stripClearAllTrackingInThreadContext_removes_intended (t : Text) :
    ∃ ks : List Text, ks.Sublist (keepIntended (splitLines t)) ∧
      stripClearAllTrackingInThreadContext t = ks.flatten :=
  ⟨_, by simpa using stripThreadLoop_sublist_keepIntended [] (splitLines t), rfl⟩

end MigrateFlowOnly
