import Mathlib.Data.Nat.Find
import MigrateFlowOnly.TryStatement

/-! What `_strip_clear_all_tracking_in_managed_thread_context` removes, said without its
loops: the first call line, the nearest `try {` line, and where the forward scan stops. -/
namespace MigrateFlowOnly

/-- The scan ends `n` lines on: after the first line at which it stops, or at the end of the
lines when it stops at none. -/
structure ScanStop (d : Int) (s : Bool) (ls : List Text) (n : Nat) : Prop where
  le_length : n ≤ ls.length
  stops : n = ls.length ∨ (0 < n ∧ StopsAfter d s ls n)
  first : ∀ k, 0 < k → k < n → ¬ StopsAfter d s ls k

/-- A scan stops no later than any line after which it may stop. -/
theorem ScanStop.le {d : Int} {s : Bool} {ls : List Text} {n n' : Nat} (h : ScanStop d s ls n)
    (h' : ScanStop d s ls n') : n ≤ n' := by
  by_contra hlt
  rcases h'.stops with rfl | ⟨hpos, hs⟩
  · exact hlt h.le_length
  · exact h.first n' hpos (by omega) hs

theorem ScanStop.unique {d : Int} {s : Bool} {ls : List Text} {n n' : Nat} (h : ScanStop d s ls n)
    (h' : ScanStop d s ls n') : n = n' :=
  Nat.le_antisymm (h.le h') (h'.le h)

/-- The `while end_idx < len(lines)` loop ends where `ScanStop` says. -/
theorem scanEnd_scanStop (d : Int) (s : Bool) (i : Nat) (ls : List Text) :
    ScanStop d s ls (scanEnd d s i ls - i) := by
  induction ls generalizing d s i with
  | nil => exact ⟨by simp [scanEnd], .inl (by simp [scanEnd]), fun k _ hkn => by simp [scanEnd] at hkn⟩
  | cons l ls ih =>
    rw [scanEnd_cons]
    split_ifs with hstop
    · rw [Nat.add_sub_cancel_left]
      exact ⟨by simp, .inr ⟨Nat.one_pos, (stopsAfter_one d s l ls).2 hstop⟩, fun k hk hk1 => by omega⟩
    · obtain ⟨hle, hstops, hfirst⟩ := ih (d + braceDiff l) (s || decide ('{' ∈ l)) (i + 1)
      have hi := le_scanEnd (d + braceDiff l) (s || decide ('{' ∈ l)) (i + 1) ls
      set e := scanEnd (d + braceDiff l) (s || decide ('{' ∈ l)) (i + 1) ls
      rw [show e - i = (e - (i + 1)) + 1 by omega]
      refine ⟨by simpa using hle, ?_, fun k hk hkn => ?_⟩
      · rcases hstops with h | ⟨-, h⟩
        · exact .inl (by simp [h])
        · exact .inr ⟨Nat.succ_pos _, (stopsAfter_succ d s l ls _).2 h⟩
      · match k, hk with
        | 1, _ => exact fun h => hstop ((stopsAfter_one d s l ls).1 h)
        | k + 2, _ => exact fun h => hfirst (k + 1) k.succ_pos (by omega) ((stopsAfter_succ d s l ls _).1 h)

/-- Line `i` is the first line holding the call. -/
def IsFirstCall (lines : List Text) (i : Nat) : Prop :=
  i < lines.length ∧ qualifiedClearCall <:+: lines.getD i [] ∧
    ∀ j < i, ¬ qualifiedClearCall <:+: lines.getD j []

/-- Line `j` is the nearest line at or above line `i` holding `try {`. -/
def IsNearestTry (lines : List Text) (i j : Nat) : Prop :=
  j ≤ i ∧ tryOpen <:+: lines.getD j [] ∧ ∀ k, j < k → k ≤ i → ¬ tryOpen <:+: lines.getD k []

/-- The first line removed on the try-block path, from the nearest `try {` line `j`: the line
above it when that holds the `清理变更追踪` comment. -/
def blockStart (lines : List Text) (j : Nat) : Nat :=
  if 1 ≤ j ∧ changeTrackingMarker <:+: lines.getD (j - 1) [] then j - 1 else j

instance (lines : List Text) (i : Nat) : Decidable (IsFirstCall lines i) :=
  inferInstanceAs (Decidable (_ ∧ _ ∧ _))

theorem blockStart_le (lines : List Text) (j : Nat) : blockStart lines j ≤ j := by
  unfold blockStart
  split_ifs <;> omega

theorem IsNearestTry.unique {lines : List Text} {i j j' : Nat} (h : IsNearestTry lines i j)
    (h' : IsNearestTry lines i j') : j = j' := by
  by_contra hne
  rcases Nat.lt_or_gt_of_ne hne with hlt | hlt
  · exact h.2.2 j' hlt h'.1 h'.2.1
  · exact h'.2.2 j hlt h.1 h.2.1

/-- A `try {` line at or above line `i` gives a nearest one: the greatest such index. -/
theorem exists_isNearestTry {lines : List Text} {i k : Nat} (hk : k ≤ i)
    (htry : tryOpen <:+: lines.getD k []) : ∃ j, IsNearestTry lines i j :=
  ⟨Nat.findGreatest (fun k => tryOpen <:+: lines.getD k []) i, Nat.findGreatest_le i,
    @Nat.findGreatest_spec k (fun k => tryOpen <:+: lines.getD k []) _ i hk htry,
    fun _ hk' hki => Nat.findGreatest_is_greatest hk' hki⟩

theorem firstCallIndex_of_isFirstCall {lines : List Text} {i : Nat} (h : IsFirstCall lines i) :
    firstCallIndex lines = some i := by
  induction lines generalizing i with
  | nil => exact absurd h.1 (Nat.not_lt_zero i)
  | cons l ls ih =>
    obtain ⟨hlt, hcall, hbefore⟩ := h
    cases i with
    | zero => simpa [firstCallIndex] using hcall
    | succ i =>
      have hl : ¬ qualifiedClearCall <:+: l := by simpa using hbefore 0 (Nat.succ_pos i)
      have hrest : IsFirstCall ls i :=
        ⟨by simpa using hlt, by simpa using hcall, fun j hj => by simpa using hbefore (j + 1) (by omega)⟩
      simp [firstCallIndex, hl, ih hrest]

theorem firstCallIndex_of_no_call {lines : List Text}
    (h : ∀ l ∈ lines, ¬ qualifiedClearCall <:+: l) : firstCallIndex lines = none := by
  induction lines with
  | nil => rfl
  | cons l ls ih =>
    simp [firstCallIndex, h l (List.mem_cons_self l ls), ih fun l' hl' => h l' (List.mem_cons_of_mem l hl')]

/-- Without a `try {` line below line `0`, the backward walk runs to line `0`. -/
theorem walkBack_of_no_try {lines : List Text} :
    ∀ {i : Nat}, (∀ k ≤ i, 0 < k → ¬ tryOpen <:+: lines.getD k []) → walkBack lines i = 0
  | 0, _ => rfl
  | n + 1, h => by
    rw [walkBack, if_neg (h (n + 1) le_rfl (Nat.succ_pos n))]
    exact walkBack_of_no_try fun k hk hk0 => h k (by omega) hk0

theorem managedPlan_of_no_call {lines : List Text} (h : ∀ l ∈ lines, ¬ qualifiedClearCall <:+: l) :
    managedPlan lines = .keep := by
  rw [managedPlan, firstCallIndex_of_no_call h]

theorem managedPlan_of_no_try {lines : List Text} {i : Nat} (hi : IsFirstCall lines i)
    (hno : ∀ k ≤ i, ¬ tryOpen <:+: lines.getD k []) : managedPlan lines = .dropLine i := by
  unfold managedPlan
  rw [firstCallIndex_of_isFirstCall hi]
  dsimp only
  rw [walkBack_of_no_try fun k hk _ => hno k hk, if_pos ⟨rfl, hno 0 (Nat.zero_le i)⟩]

theorem managedPlan_of_nearestTry {lines : List Text} {i j : Nat} (hi : IsFirstCall lines i)
    (hj : IsNearestTry lines i j) :
    managedPlan lines =
      .dropBlock (blockStart lines j) (scanEnd 0 false (blockStart lines j) (lines.drop (blockStart lines j))) := by
  unfold managedPlan
  rw [firstCallIndex_of_isFirstCall hi]
  dsimp only
  rw [walkBack_eq hj.1 hj.2.1 hj.2.2, if_neg fun ⟨h0, hn⟩ => hn (h0 ▸ hj.2.1)]
  rfl

/-- What the managed stripper removes, said without its loops: nothing when no line holds the
call; the first call line when no line at or above it holds `try {`; otherwise the lines
from the nearest such line, or the marked comment line above it, up to where the forward scan
stops. -/
theorem stripClearAllTrackingInManagedThreadContext_spec (t : Text) :
    ((∀ l ∈ splitLines t, ¬ qualifiedClearCall <:+: l) →
      stripClearAllTrackingInManagedThreadContext t = t) ∧
    (∀ i, IsFirstCall (splitLines t) i → (∀ k ≤ i, ¬ tryOpen <:+: (splitLines t).getD k []) →
      stripClearAllTrackingInManagedThreadContext t = ((splitLines t).eraseIdx i).flatten) ∧
    (∀ i j, IsFirstCall (splitLines t) i → IsNearestTry (splitLines t) i j →
      ∃ n, ScanStop 0 false ((splitLines t).drop (blockStart (splitLines t) j)) n ∧
        stripClearAllTrackingInManagedThreadContext t =
          ((splitLines t).take (blockStart (splitLines t) j) ++
            (splitLines t).drop (blockStart (splitLines t) j + n)).flatten) := by
  refine ⟨fun h => ?_, fun i hi hno => ?_, fun i j hi hj => ?_⟩
  · rw [stripClearAllTrackingInManagedThreadContext, managedPlan_of_no_call h]
  · rw [stripClearAllTrackingInManagedThreadContext, managedPlan_of_no_try hi hno,
      List.eraseIdx_eq_take_drop_succ]
  · refine ⟨_, scanEnd_scanStop 0 false (blockStart (splitLines t) j) _, ?_⟩
    rw [stripClearAllTrackingInManagedThreadContext, managedPlan_of_nearestTry hi hj,
      Nat.add_sub_cancel' (le_scanEnd _ _ _ _)]

/-- The stripper removes one contiguous range of lines, starting at or above the first call
line. The range holds the call line exactly when the forward scan from the nearest `try {`
line at or above it, if there is one, does not stop above the call line. -/
theorem stripClearAllTrackingInManagedThreadContext_removes_call_iff (t : Text) (i : Nat)
    (hi : IsFirstCall (splitLines t) i) :
    ∃ a b, a ≤ i ∧ a < b ∧ b ≤ (splitLines t).length ∧
      stripClearAllTrackingInManagedThreadContext t =
        ((splitLines t).take a ++ (splitLines t).drop b).flatten ∧
      (i < b ↔ ∀ j, IsNearestTry (splitLines t) i j → ∀ k, 0 < k →
        blockStart (splitLines t) j + k ≤ i →
          ¬ StopsAfter 0 false ((splitLines t).drop (blockStart (splitLines t) j)) k) := by
  by_cases htry : ∃ k ≤ i, tryOpen <:+: (splitLines t).getD k []
  · obtain ⟨k, hk, hkt⟩ := htry
    obtain ⟨j, hj⟩ := exists_isNearestTry hk hkt
    have hB := (blockStart_le (splitLines t) j).trans hj.1
    have hstop := scanEnd_scanStop 0 false (blockStart (splitLines t) j)
      ((splitLines t).drop (blockStart (splitLines t) j))
    have hlen := hstop.le_length
    have hstops := hstop.stops
    have hi' := hi.1
    rw [List.length_drop] at hlen hstops
    refine ⟨blockStart (splitLines t) j, scanEnd 0 false (blockStart (splitLines t) j)
      ((splitLines t).drop (blockStart (splitLines t) j)), hB, by omega, by omega, ?_,
      fun hib j' hj' k hk hki => ?_, fun h => ?_⟩
    · rw [stripClearAllTrackingInManagedThreadContext, managedPlan_of_nearestTry hi hj]
    · obtain rfl := hj.unique hj'
      exact hstop.first k hk (by omega)
    · by_contra hib
      rcases hstops with hn | ⟨hpos, hs⟩
      · omega
      · exact h j hj _ hpos (by omega) hs
  · push_neg at htry
    refine ⟨i, i + 1, le_rfl, Nat.lt_succ_self i, hi.1, ?_,
      ⟨fun _ j hj => absurd hj.2.1 (htry j hj.1), fun _ => Nat.lt_succ_self i⟩⟩
    rw [stripClearAllTrackingInManagedThreadContext, managedPlan_of_no_try hi htry]

/-- A closed one-line `try` above the call: the nearest `try {` line. -/
def closedTryAboveCall : Text :=
  ("try \x7b a(); \x7d catch (E e) \x7b\x7d\n" ++
    "com.syy.taskflowinsight.api.TFI.clearAllTracking();\n").toList

theorem stripClearAllTrackingInManagedThreadContext_removes_call_iff_sample :
    IsFirstCall (splitLines closedTryAboveCall) 1 ∧
    ∃ a b, a ≤ 1 ∧ a < b ∧ b ≤ (splitLines closedTryAboveCall).length ∧
      stripClearAllTrackingInManagedThreadContext closedTryAboveCall =
        ((splitLines closedTryAboveCall).take a ++ (splitLines closedTryAboveCall).drop b).flatten ∧
      (1 < b ↔ ∀ j, IsNearestTry (splitLines closedTryAboveCall) 1 j → ∀ k, 0 < k →
        blockStart (splitLines closedTryAboveCall) j + k ≤ 1 →
          ¬ StopsAfter 0 false
            ((splitLines closedTryAboveCall).drop (blockStart (splitLines closedTryAboveCall) j)) k) :=
  have hi : IsFirstCall (splitLines closedTryAboveCall) 1 := by decide
  ⟨hi, stripClearAllTrackingInManagedThreadContext_removes_call_iff _ 1 hi⟩

end MigrateFlowOnly
