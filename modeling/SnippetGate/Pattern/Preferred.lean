import SnippetGate.Pattern.Basic

/-!
# Preferred ends

The first end of a pattern that leads on, in the order of preference. The ends are tried one at a
time and none behind the one that counts. `Pattern.firstEnd?_eq` says that this is a search
through the list of all ends.
-/

namespace SnippetGate

variable {α : Type}

namespace Cursor

/-- What the nearest place that characters of a class lead to is good for or, if it is good for
nothing, what a later one is good for. -/
def nearestRun? (p : Char → Bool) (k : Cursor → Option α) (pos : Nat) (before : Text) :
    Text → Option α
  | [] => k ⟨pos, before, []⟩
  | x :: r =>
    match k ⟨pos, before, x :: r⟩ with
    | some a => some a
    | none => if p x then nearestRun? p k (pos + 1) (x :: before) r else none

theorem runFrom_eq (p : Char → Bool) (pos : Nat) (before t : Text) (acc : List Cursor) :
    runFrom p pos before t acc = runFrom p pos before t [] ++ acc := by
  induction t generalizing pos before acc with
  | nil => rfl
  | cons x r ih =>
    rw [runFrom, runFrom]
    split
    · rw [ih, ih _ _ [_], List.append_assoc, List.singleton_append]
    · rfl

theorem nearestRun?_eq (p : Char → Bool) (k : Cursor → Option α) (pos : Nat) (before t : Text) :
    nearestRun? p k pos before t = (runFrom p pos before t []).reverse.findSome? k := by
  induction t generalizing pos before with
  | nil => simp [nearestRun?, runFrom]
  | cons x r ih =>
    rw [nearestRun?, runFrom]
    split
    · next h =>
      split
      · rw [runFrom_eq, List.reverse_append]
        simp [h]
      · simp [h]
    · next h =>
      split
      · rw [ih, runFrom_eq _ _ _ _ [_], List.reverse_append]
        simp [h]
      · simp [h]

end Cursor

namespace Pattern

/-- What the first place that up to `n` steps lead to is good for, if it is good for anything. -/
def firstRepeat? (step : (Progress → Option α) → Progress → Option α) (greedy : Bool)
    (k : Progress → Option α) : Nat → Progress → Option α
  | 0, s => k s
  | n + 1, s =>
    let more (_ : Unit) := step (fun t =>
      if s.cursor.pos < t.cursor.pos then firstRepeat? step greedy k n t else none) s
    if greedy then
      match more () with
      | some a => some a
      | none => k s
    else
      match k s with
      | some a => some a
      | none => more ()

/-- What the first end of a piece that begins at a place is good for, if any end is good for
anything. -/
def firstEnd? : Pattern → {β : Type} → (Progress → Option β) → Progress → Option β
  | .empty, _, k, s => k s
  | .one p, _, k, s => if s.cursor.isBefore p then k (s.move s.cursor.next) else none
  | .run p greedy, _, k, s =>
    if greedy then (s.cursor.runEnds p).findSome? fun c => k (s.move c)
    else Cursor.nearestRun? p (fun c => k (s.move c)) s.cursor.pos s.cursor.before s.cursor.after
  | .seq a b, _, k, s => firstEnd? a (firstEnd? b k) s
  | .alt a b, _, k, s =>
    match firstEnd? a k s with
    | some x => some x
    | none => firstEnd? b k s
  | .star a greedy, _, k, s => firstRepeat? (firstEnd? a) greedy k s.cursor.after.length s
  | .group n a, _, k, s => firstEnd? a (fun t => k (Progress.remember t n s.cursor)) s
  | .again n, _, k, s =>
    match s.group? n with
    | none => none
    | some g =>
      if g.text.isPrefixOf s.cursor.after then k (s.move (s.cursor.skip g.text.length)) else none
  | .ahead a, _, k, s =>
    match firstEnd? a some s with
    | some _ => k s
    | none => none
  | .notAhead a, _, k, s =>
    match firstEnd? a some s with
    | some _ => none
    | none => k s
  | .notAfter p, _, k, s => if s.cursor.isAfter p then none else k s
  | .lineStart, _, k, s => if s.cursor.atLineStart then k s else none
  | .lineEnd, _, k, s => if s.cursor.atLineEnd then k s else none
  | .textEnd, _, k, s => if s.cursor.atTextEnd then k s else none
  | .wordEdge, _, k, s => if s.cursor.atWordEdge then k s else none

/-! ### The first end among all -/

theorem findSome?_flatMap {β γ : Type} (f : γ → Option α) (g : β → List γ) (xs : List β) :
    (xs.flatMap g).findSome? f = xs.findSome? fun x => (g x).findSome? f := by
  induction xs with
  | nil => rfl
  | cons x xs ih =>
    rw [List.flatMap_cons, List.findSome?_append, ih, List.findSome?_cons]
    cases (g x).findSome? f <;> rfl

theorem firstRepeat?_eq {step : (Progress → Option α) → Progress → Option α}
    {ends : Progress → List Progress} (h : ∀ k s, step k s = (ends s).findSome? k)
    (greedy : Bool) (k : Progress → Option α) (n : Nat) (s : Progress) :
    firstRepeat? step greedy k n s = (repeatEnds ends greedy n s).findSome? k := by
  induction n generalizing s with
  | zero => simp [firstRepeat?, repeatEnds]
  | succ n ih =>
    have more : step (fun t =>
        if s.cursor.pos < t.cursor.pos then firstRepeat? step greedy k n t else none) s =
        ((ends s).flatMap fun t =>
          if s.cursor.pos < t.cursor.pos then repeatEnds ends greedy n t else []).findSome? k := by
      rw [h, findSome?_flatMap]
      congr
      funext t
      split
      · exact ih t
      · rfl
    rw [firstRepeat?, repeatEnds]
    simp only [more]
    cases greedy
    · simp only [Bool.false_eq_true, if_false, List.findSome?_cons]
      cases k s <;> rfl
    · simp only [if_true, List.findSome?_append, List.findSome?_singleton]
      generalize List.findSome? k _ = found
      cases found <;> rfl

theorem firstEnd?_some (a : Pattern) (s : Progress)
    (h : ∀ k : Progress → Option Progress, a.firstEnd? k s = (a.ends s).findSome? k) :
    a.firstEnd? some s = (a.ends s).head? := by
  rw [h]
  cases a.ends s <;> rfl

theorem firstEnd?_eq {α : Type} (a : Pattern) (k : Progress → Option α) (s : Progress) :
    a.firstEnd? k s = (a.ends s).findSome? k := by
  induction a generalizing α s with
  | empty => simp [firstEnd?, ends]
  | one p => rw [firstEnd?, ends]; split <;> simp
  | run p greedy =>
    cases greedy
    · simp only [firstEnd?, ends, Cursor.nearestRun?_eq, Cursor.runEnds, Bool.false_eq_true,
        if_false, List.findSome?_map]
      rfl
    · simp [firstEnd?, ends, List.findSome?_map, Function.comp_def]
  | seq a b iha ihb =>
    rw [firstEnd?, ends, iha, findSome?_flatMap]
    congr
    funext t
    exact ihb k t
  | alt a b iha ihb =>
    rw [firstEnd?, ends, iha, ihb, List.findSome?_append]
    cases (a.ends s).findSome? k <;> rfl
  | star a greedy ih => exact firstRepeat?_eq (fun k s => ih k s) greedy k _ s
  | group n a ih => rw [firstEnd?, ends, ih, List.findSome?_map]; rfl
  | again n =>
    rw [firstEnd?, ends]
    cases s.group? n with
    | none => rfl
    | some g => dsimp only; split <;> simp
  | ahead a ih =>
    rw [firstEnd?, ends, firstEnd?_some a s fun k => ih k s]
    cases a.ends s <;> simp
  | notAhead a ih =>
    rw [firstEnd?, ends, firstEnd?_some a s fun k => ih k s]
    cases a.ends s <;> simp
  | notAfter p => rw [firstEnd?, ends]; split <;> simp
  | lineStart => rw [firstEnd?, ends]; split <;> simp
  | lineEnd => rw [firstEnd?, ends]; split <;> simp
  | textEnd => rw [firstEnd?, ends]; split <;> simp
  | wordEdge => rw [firstEnd?, ends]; split <;> simp

/-- The first end. -/
theorem firstEnd?_some_eq_head? (a : Pattern) (s : Progress) :
    a.firstEnd? some s = (a.ends s).head? :=
  firstEnd?_some a s fun k => firstEnd?_eq a k s

end Pattern

end SnippetGate
