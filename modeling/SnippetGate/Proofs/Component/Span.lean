import SnippetGate.Proofs.Balance.Shift
import SnippetGate.Proofs.Component.Isolated

/-!
# A component that is there as a whole

Where the declaration of the entry point has a block, its text falls into four parts: what comes
before the declaration, the declaration up to its brace, the block, and the rest. The component is
made of the two in the middle, with the mount call behind them.
-/

namespace SnippetGate.Component

open Pattern

variable {cfg : Settings} {t before head block rest : Text} {m : Match} {stop : Nat}

/-- The declaration of the entry point between what comes before it and what comes behind its
brace. -/
theorem exists_parts_of_entryOpening (h : cfg.entryOpening.search? t = some m) :
    ∃ before p r, t = before ++ ("function".toList ++ (p ++ '{' :: r)) ∧
      m.start = before.length ∧ m.stop - 1 = (before ++ ("function".toList ++ p)).length ∧
      m.text = "function".toList ++ (p ++ ['{']) := by
  obtain ⟨a, p, r, ht, hstart, hstop⟩ := entryOpening_split h
  obtain ⟨a', ht', hstart', hstop'⟩ := (finds_of_searchFrom? h).split
  refine ⟨a, p, r, ht, hstart, hstop, ?_⟩
  have hlen : m.text.length = ("function".toList ++ (p ++ ['{'])).length := by
    simp only [List.length_append, List.length_singleton] at hstop ⊢
    have : 0 < "function".toList.length := by decide
    omega
  have hafter : m.text ++ m.last.cursor.after = ("function".toList ++ (p ++ ['{'])) ++ r := by
    have hsplit := ht'.symm.trans ht
    have hwhole := List.append_inj_right hsplit (hstart'.symm.trans hstart)
    simpa using hwhole
  exact List.append_inj_left hafter hlen

/-- A text in four parts: the first declaration of the entry point, `m`, stands behind `before`
and consists of `head` and a brace, and `block` is the block that begins with that brace. -/
structure Spans (cfg : Settings) (t : Text) (m : Match) (before head block rest : Text) : Prop where
  found : cfg.entryOpening.search? t = some m
  parts : t = before ++ (head ++ (block ++ rest))
  start : m.start = before.length
  brace : m.stop - 1 = (before ++ head).length
  opening : m.text = head ++ ['{']
  /-- The block ends where the scan from its brace has closed all that it opened. -/
  ends : t.blockEnd? (m.stop - 1) = some (before ++ (head ++ block)).length
  /-- The block begins with its brace and ends with a closing bracket. -/
  bracket : ∃ q x, block = '{' :: (q ++ [x]) ∧ (x = ')' ∨ x = ']' ∨ x = '}')

theorem exists_spans (h : cfg.entryOpening.search? t = some m)
    (hb : t.blockEnd? (m.stop - 1) = some stop) :
    ∃ before head block rest, Spans cfg t m before head block rest := by
  obtain ⟨a, p, r, ht, hstart, hbrace, htext⟩ := exists_parts_of_entryOpening h
  have hassoc : t = (a ++ ("function".toList ++ p)) ++ '{' :: r := by rw [ht]; simp
  have hdrop : t.drop (m.stop - 1) = '{' :: r := by rw [hbrace, hassoc, List.drop_left]
  obtain ⟨q, x, hq, hstop, hx⟩ := Text.exists_of_blockEnd? hdrop hb
  rw [hdrop] at hq
  -- the closing bracket is not the brace that begins the block
  obtain ⟨q, rfl⟩ : ∃ q', q = '{' :: q' := by
    cases q with
    | nil =>
      obtain ⟨rfl, -⟩ := List.cons.inj hq
      exact absurd hx (by decide)
    | cons y q => exact ⟨q, by rw [(List.cons.inj hq).1]⟩
  refine ⟨a, "function".toList ++ p, '{' :: (q ++ [x]), t.drop stop, h, ?_, hstart, hbrace,
    by rw [htext, List.append_assoc], ?_, q, x, rfl, hx⟩
  · exact hassoc.trans (by rw [hq]; simp)
  · rw [hb, hstop, hbrace]
    simp only [List.length_append, List.length_cons, List.length_nil, Option.some.injEq]
    omega

namespace Spans

theorem drop_eq (h : Spans cfg t m before head block rest) :
    t.drop (before ++ (head ++ block)).length = rest := by
  have hassoc : t = (before ++ (head ++ block)) ++ rest := by rw [h.parts]; simp
  rw [hassoc, List.drop_left]

theorem slice (h : Spans cfg t m before head block rest) :
    t.slice m.start (before ++ (head ++ block)).length = head ++ block := by
  have hassoc : t = (before ++ (head ++ block)) ++ rest := by rw [h.parts]; simp
  rw [Text.slice, h.start, hassoc, List.take_left, List.drop_left]

/-- The component of such a text. -/
theorem ofText_eq (h : Spans cfg t m before head block rest) :
    ofText cfg t =
      { text := head ++ (block ++ (separator cfg rest ++ cfg.canonicalMount))
        mode := .span } := by
  simp only [ofText, h.found, h.ends, h.slice, h.drop_eq, List.append_assoc]

end Spans

namespace Spans

/-- The block is the same without what comes before the declaration, but for the offsets. -/
theorem ends_behind (h : Spans cfg t m before head block rest) :
    (head ++ (block ++ rest)).blockEnd? head.length = some (head ++ block).length ∧
      (t.blockScan (m.stop - 1)).issues =
        ((head ++ (block ++ rest)).blockScan head.length).issues.map (Issue.shift m.start) := by
  obtain ⟨hend, hissues⟩ := Text.blockScan_append before (head ++ (block ++ rest)) head.length
  rw [← List.length_append, ← h.brace, ← h.parts] at hend hissues
  rw [h.ends] at hend
  obtain ⟨j, hj, hlen⟩ := Option.map_eq_some_iff.mp hend.symm
  refine ⟨?_, h.start ▸ hissues (by rw [hj]; rfl)⟩
  have hsum : (before ++ (head ++ block)).length = (head ++ block).length + before.length := by
    rw [List.length_append, Nat.add_comm]
  rw [hj, Nat.add_right_cancel (hlen.trans hsum)]

end Spans

theorem separator_ne_nil (rest : Text) : separator cfg rest ≠ [] := by
  rw [separator]
  split
  · next h =>
    simp only [Bool.and_eq_true, Bool.not_eq_true', List.isEmpty_eq_false_iff] at h
    exact h.1
  · decide

theorem mode_ofTruncated (region : Text) : (ofTruncated cfg region).mode = .truncated := by
  unfold ofTruncated
  split
  · rfl
  · dsimp only
    split <;> rfl

/-- A text without an entry point is left as it is. -/
theorem text_of_missing (h : (ofText cfg t).mode = .missing) : (ofText cfg t).text = t := by
  unfold ofText at h ⊢
  split
  · rfl
  next m hm =>
  rw [hm] at h
  dsimp only at h
  split at h
  · rw [mode_ofTruncated] at h
    cases h
  · cases h

/-- A component is there as a whole just if its declaration has a block. -/
theorem exists_spans_of_mode (h : (ofText cfg t).mode = .span) :
    ∃ m before head block rest, Spans cfg t m before head block rest := by
  unfold ofText at h
  split at h
  · cases h
  next m hm =>
  split at h
  · rw [mode_ofTruncated] at h
    cases h
  · next stop hstop =>
    exact ⟨m, exists_spans hm hstop⟩

end SnippetGate.Component
