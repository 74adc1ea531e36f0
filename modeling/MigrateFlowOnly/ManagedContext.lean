import MigrateFlowOnly.BraceMatch
import MigrateFlowOnly.ThreadContext

/-! `_strip_clear_all_tracking_in_managed_thread_context`: its three loops, the plan of lines
it removes, and what that removal does to brace balance. -/
namespace MigrateFlowOnly

/-- `"try {"`. -/
def tryOpen : Text := "try ".toList ++ ['{']

/-- The comment text `清理变更追踪` above the `try`. -/
def changeTrackingMarker : Text := "清理变更追踪".toList

/-- The `for i, line in enumerate(lines)` search for the first line holding the call. -/
def firstCallIndex : List Text → Option Nat
  | [] => none
  | line :: rest => if qualifiedClearCall <:+: line then some 0 else (firstCallIndex rest).map (· + 1)

/-- `while start_idx > 0 and "try {" not in lines[start_idx]: start_idx -= 1`. -/
def walkBack (lines : List Text) : Nat → Nat
  | 0 => 0
  | n + 1 => if tryOpen <:+: lines.getD (n + 1) [] then n + 1 else walkBack lines n

/-- The `for ch in line` loop: brace depth and whether a `{` was seen. -/
def scanLine : Int → Bool → Text → Int × Bool
  | depth, started, [] => (depth, started)
  | depth, started, ch :: rest =>
    if ch = '{' then scanLine (depth + 1) true rest
    else if ch = '}' then scanLine (depth - 1) started rest
    else scanLine depth started rest

/-- After the blank lines, the next line begins with `catch` or `finally`. -/
def continuesClause (rest : List Text) : Bool :=
  match rest.dropWhile (fun l => decide (strip l = [])) with
  | [] => false
  | next :: _ => decide ("catch".toList <+: lstrip next) || decide ("finally".toList <+: lstrip next)

/-- The `while end_idx < len(lines)` loop over the lines from `end_idx` on: the index after
the line whose end brings a started depth back to zero, with no clause after it. -/
def scanEnd (depth : Int) (started : Bool) (endIdx : Nat) : List Text → Nat
  | [] => endIdx
  | line :: rest =>
    if (scanLine depth started line).2 = true ∧ (scanLine depth started line).1 = 0 ∧
        continuesClause rest = false then endIdx + 1
    else scanEnd (scanLine depth started line).1 (scanLine depth started line).2 (endIdx + 1) rest

/-- The three ways the stripper can return. -/
inductive StripPlan
  /-- No line holds the call: `return java_text`. -/
  | keep
  /-- No `try {` line above the call: the call line alone is removed. -/
  | dropLine (callIdx : Nat)
  /-- The lines `[start, stop)` are removed. -/
  | dropBlock (start stop : Nat)
  deriving DecidableEq, Repr

/-- The decisions of `_strip_clear_all_tracking_in_managed_thread_context` on the lines. -/
def managedPlan (lines : List Text) : StripPlan :=
  match firstCallIndex lines with
  | none => .keep
  | some callIdx =>
    if walkBack lines callIdx = 0 ∧ ¬ tryOpen <:+: lines.getD 0 [] then .dropLine callIdx
    else
      let startIdx :=
        if 1 ≤ walkBack lines callIdx ∧
            changeTrackingMarker <:+: lines.getD (walkBack lines callIdx - 1) []
        then walkBack lines callIdx - 1 else walkBack lines callIdx
      .dropBlock startIdx (scanEnd 0 false startIdx (lines.drop startIdx))

/-- `_strip_clear_all_tracking_in_managed_thread_context(java_text)`. -/
def stripClearAllTrackingInManagedThreadContext (javaText : Text) : Text :=
  match managedPlan (splitLines javaText) with
  | .keep => javaText
  | .dropLine i => ((splitLines javaText).take i ++ (splitLines javaText).drop (i + 1)).flatten
  | .dropBlock a b => ((splitLines javaText).take a ++ (splitLines javaText).drop b).flatten

@[simp] theorem scanLine_fst (d : Int) (s : Bool) (l : Text) : (scanLine d s l).1 = d + braceDiff l := by
  induction l generalizing d s with
  | nil => simp [scanLine]
  | cons ch rest ih =>
    simp only [scanLine]
    split_ifs with h1 h2
    · simp [ih, braceDelta, h1]
      omega
    · simp [ih, braceDelta, h1, h2]
      omega
    · simp [ih, braceDelta, h1, h2]

theorem le_scanEnd (d : Int) (s : Bool) (i : Nat) (ls : List Text) : i ≤ scanEnd d s i ls := by
  induction ls generalizing d s i with
  | nil => exact le_rfl
  | cons line rest ih =>
    simp only [scanEnd]
    split_ifs
    · exact Nat.le_succ i
    · exact (Nat.le_succ i).trans (ih _ _ _)

/-- The backward walk stops at the nearest `try {` line whether or not that `try` encloses
the call: a closed one-line `try` above the call is removed and the call line is kept. -/
theorem stripClearAllTrackingInManagedThreadContext_keeps_call_below_closed_try :
    stripClearAllTrackingInManagedThreadContext
        ("try \x7b a(); \x7d catch (E e) \x7b\x7d\n".toList ++
          "com.syy.taskflowinsight.api.TFI.clearAllTracking();\n".toList) =
      "com.syy.taskflowinsight.api.TFI.clearAllTracking();\n".toList := by
  decide

/-- Inside the enclosing `try` block, a closed nested `try` line above the call is taken
for the enclosing statement: only that line goes. -/
theorem stripClearAllTrackingInManagedThreadContext_stops_at_nested_try :
    stripClearAllTrackingInManagedThreadContext
        ("try \x7b\n  try \x7b a(); \x7d catch (E e) \x7b\x7d\n".toList ++
          "  com.syy.taskflowinsight.api.TFI.clearAllTracking();\n\x7d catch (E e) \x7b\n\x7d\n".toList) =
      "try \x7b\n  com.syy.taskflowinsight.api.TFI.clearAllTracking();\n\x7d catch (E e) \x7b\n\x7d\n".toList := by
  decide

/-- After the first `k` of the lines `ls`, entered at depth `d` with `s` telling whether a
`{` was seen, the scan stops: a `{` has been seen, the depth is back to zero, and the next
non-blank line opens no `catch` or `finally` clause. -/
def StopsAfter (d : Int) (s : Bool) (ls : List Text) (k : Nat) : Prop :=
  (s = true ∨ '{' ∈ (ls.take k).flatten) ∧ d + braceDiff (ls.take k).flatten = 0 ∧
    continuesClause (ls.drop k) = false

theorem stopsAfter_succ (d : Int) (s : Bool) (l : Text) (ls : List Text) (k : Nat) :
    StopsAfter d s (l :: ls) (k + 1) ↔
      StopsAfter (d + braceDiff l) (s || decide ('{' ∈ l)) ls k := by
  simp only [StopsAfter, List.take_succ_cons, List.flatten_cons, List.mem_append, braceDiff_append,
    List.drop_succ_cons, Bool.or_eq_true, decide_eq_true_eq, Int.add_assoc, or_assoc]

theorem stopsAfter_one (d : Int) (s : Bool) (l : Text) (ls : List Text) :
    StopsAfter d s (l :: ls) 1 ↔
      (s || decide ('{' ∈ l)) = true ∧ d + braceDiff l = 0 ∧ continuesClause ls = false := by
  rw [stopsAfter_succ]
  simp [StopsAfter]

end MigrateFlowOnly
